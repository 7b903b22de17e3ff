import LedgerCommit.Proofs.Delivery

/-!
# Fetching

Letting the server work, and reading streams meanwhile, takes turns of the
delivery and no others. Each round of reading brings a stream closer to its
end, and as many rounds are made as this can take. So a fetch from a transport
that is quiet gives the whole answer to each of its requests, and leaves the
transport quiet again.
-/

namespace LedgerCommit

/-- How much reading a stream still takes of whose answer `n` blocks are not
yet received. -/
def Stage.unread (n : Nat) : Stage → Nat
  | .unsent => n + 4
  | .waiting => n + 3
  | .granted => n + 2
  | .receiving _ _ => n + 1
  | .ended => 0

namespace Transport

/-! ## Letting the server work -/

/-- Whether turns of the delivery lead from one transport to another. -/
def Reaches (t t' : Transport) : Prop :=
  ∃ turns : List Turn, (∀ turn ∈ turns, turn.Delivers) ∧ t.run turns = t'

section

variable {t t' t'' : Transport} {turn : Turn}

theorem Reaches.refl (t : Transport) : Reaches t t := ⟨[], nofun, rfl⟩

theorem Reaches.step (t : Transport) (hturn : turn.Delivers) : Reaches t (t.step turn) :=
  ⟨[turn], fun _ h => List.mem_singleton.mp h ▸ hturn, rfl⟩

theorem Reaches.trans (h : Reaches t t') (h' : Reaches t' t'') : Reaches t t'' := by
  obtain ⟨turns, hturns, rfl⟩ := h
  obtain ⟨more, hmore, rfl⟩ := h'
  refine ⟨turns ++ more, fun turn hturn => ?_, ?_⟩
  · exact (List.mem_append.mp hturn).elim (hturns turn) (hmore turn)
  · rw [run, List.foldl_append]
    rfl

theorem reaches_acceptAll (n : Nat) (t : Transport) : Reaches t (acceptAll n t) := by
  induction n generalizing t with
  | zero => exact .refl t
  | succ n ih =>
      cases haccept : t.accept with
      | none =>
          rw [acceptAll, haccept]
          exact .refl t
      | some t' =>
          have hserve : Reaches t (t.step .serve) := .step t trivial
          rw [step, haccept] at hserve
          rw [acceptAll, haccept]
          exact hserve.trans (ih t')

/-- What a job at a known position does. -/
theorem step_work_append (t : Transport) (c : RequestChannel) (before after : List Job) (j : Job) :
    step { t with channel := c, jobs := before ++ j :: after } (.work before.length)
      = match stepJob c j with
        | none => { t with channel := c, jobs := before ++ j :: after }
        | some (c', next) =>
            { t with channel := c', jobs := before ++ (next.toList ++ after) } := by
  rw [step, work]
  cases hjob : stepJob c j with
  | none => simp [hjob]
  | some out =>
      obtain ⟨c', next⟩ := out
      cases next with
      | none => simp [hjob, List.eraseIdx_append_of_length_le]
      | some j' => simp [hjob]

/-- Letting a job send takes turns of this job. -/
theorem reaches_runJob (t : Transport) (c : RequestChannel) (before after : List Job)
    (stream : Nat) (left : List Block) :
    Reaches { t with channel := c, jobs := before ++ ⟨stream, left⟩ :: after }
      { t with
        channel := (runJob c stream left).1
        jobs := before ++ ((runJob c stream left).2.toList ++ after) } := by
  have hwork (c : RequestChannel) (left : List Block) :
      Reaches { t with channel := c, jobs := before ++ ⟨stream, left⟩ :: after }
        (step { t with channel := c, jobs := before ++ ⟨stream, left⟩ :: after }
          (.work before.length)) := .step _ trivial
  induction left generalizing c with
  | nil =>
      have hlast := hwork c []
      rw [step_work_append] at hlast
      exact hlast
  | cons b rest ih =>
      have hnext := hwork c (b :: rest)
      rw [step_work_append, stepJob] at hnext
      rw [runJob]
      rcases c.respond_cases stream b with ⟨buffer, complete, -, -, hsent⟩ | ⟨-, hsent⟩ | ⟨-, hsent⟩
      · simp only [hsent] at hnext ⊢
        exact hnext.trans (ih _)
      · simp only [hsent]
        exact .refl _
      · simp only [hsent] at hnext ⊢
        exact hnext

theorem reaches_runJobs (t : Transport) (c : RequestChannel) (before jobs : List Job) :
    Reaches { t with channel := c, jobs := before ++ jobs }
      { t with channel := (runJobs c jobs).1, jobs := before ++ (runJobs c jobs).2 } := by
  induction jobs generalizing c before with
  | nil => exact .refl _
  | cons j jobs ih =>
      have hfirst := reaches_runJob t c before jobs j.stream j.left
      have hrest := ih (runJob c j.stream j.left).1 (before ++ (runJob c j.stream j.left).2.toList)
      rw [List.append_assoc, List.append_assoc] at hrest
      exact hfirst.trans hrest

/-- **Letting the server work takes turns of the delivery.** -/
theorem reaches_settle (t : Transport) : Reaches t t.settle :=
  (reaches_acceptAll _ t).trans (reaches_runJobs _ _ [] _)

/-! ### When the server rests -/

theorem queued_runJob (c : RequestChannel) (stream : Nat) (left : List Block) :
    (runJob c stream left).1.queued = c.queued := by
  induction left generalizing c with
  | nil => exact c.queued_finish stream
  | cons b rest ih =>
      rw [runJob]
      rcases c.respond_cases stream b with ⟨buffer, complete, -, -, hsent⟩ | ⟨-, hsent⟩ | ⟨-, hsent⟩
      · simp only [hsent]
        exact ih _
      · simp only [hsent]
      · simp only [hsent]
        exact c.queued_finish stream

theorem queued_runJobs (c : RequestChannel) (jobs : List Job) :
    (runJobs c jobs).1.queued = c.queued := by
  induction jobs generalizing c with
  | nil => rfl
  | cons j jobs ih => exact (ih _).trans (queued_runJob c j.stream j.left)

theorem isFull_runJob {i : Nat} {c : RequestChannel} (h : c.IsFull i) (stream : Nat)
    (left : List Block) : (runJob c stream left).1.IsFull i := by
  induction left generalizing c with
  | nil => exact h.finish stream
  | cons b rest ih =>
      have hsent := h.respond stream b
      rw [runJob]
      cases hresponse : c.respond stream b with
      | mk answered c' =>
          rw [hresponse] at hsent
          cases answered with
          | sent => exact ih hsent
          | full => exact hsent
          | closed => exact hsent.finish stream

theorem isFull_runJobs {i : Nat} {c : RequestChannel} (h : c.IsFull i) (jobs : List Job) :
    (runJobs c jobs).1.IsFull i := by
  induction jobs generalizing c with
  | nil => exact h
  | cons j jobs ih => exact ih (isFull_runJob h j.stream j.left)

/-- A job that is not done has no room. -/
theorem runJob_left {j : Job} {c : RequestChannel} {stream : Nat} {left : List Block}
    (h : (runJob c stream left).2 = some j) :
    j.left ≠ [] ∧ (runJob c stream left).1.IsFull j.stream := by
  induction left generalizing c with
  | nil => cases h
  | cons b rest ih =>
      rw [runJob] at h ⊢
      rcases c.respond_cases stream b with
        ⟨buffer, complete, -, -, hsent⟩ | ⟨hfull, hsent⟩ | ⟨-, hsent⟩
      · simp only [hsent] at h ⊢
        exact ih h
      · simp only [hsent, Option.some_inj] at h ⊢
        rw [← h]
        exact ⟨List.cons_ne_nil _ _, hfull⟩
      · simp only [hsent] at h
        cases h

theorem runJobs_left (c : RequestChannel) (jobs : List Job) :
    ∀ j ∈ (runJobs c jobs).2, j.left ≠ [] ∧ (runJobs c jobs).1.IsFull j.stream := by
  induction jobs generalizing c with
  | nil => exact nofun
  | cons j jobs ih =>
      intro j' hj'
      rcases List.mem_append.mp hj' with hfirst | hrest
      · obtain ⟨hleft, hfull⟩ := runJob_left (Option.mem_toList.mp hfirst)
        exact ⟨hleft, isFull_runJobs hfull jobs⟩
      · exact ih _ j' hrest

variable {givenUp : Nat → Prop}

/-- The server takes all requests when it may take one more than there are. -/
theorem queued_acceptAll {n : Nat} (h : Inv givenUp t) (hrunning : t.running = true)
    (hloader : t.channel.hasLoader = true) (hn : t.channel.queued.length < n) :
    (acceptAll n t).channel.queued = [] := by
  have hlistens := h.listening.trans hrunning
  induction n generalizing t with
  | zero => exact absurd hn (Nat.not_lt_zero _)
  | succ n ih =>
      cases hqueued : t.channel.queued with
      | nil =>
          have haccept : t.accept = none := by
            simp [accept, RequestChannel.take, RequestChannel.hasSender, hrunning, h.unsignalled,
              hlistens, hqueued, hloader]
          rw [acceptAll, haccept]
          exact hqueued
      | cons i rest =>
          have haccept : t.accept = some { t with
              channel := .grant { t.channel with queued := rest, taken := t.channel.taken ++ [i] }
              jobs := t.jobs ++ [⟨i, t.answerToStream i⟩] } := by
            simp [accept, RequestChannel.take, hrunning, h.unsignalled, hlistens, hqueued]
          obtain ⟨-, hlistens', hloader'⟩ := RequestChannel.frame_grant
            { t.channel with queued := rest, taken := t.channel.taken ++ [i] }
          rw [acceptAll, haccept]
          refine ih (h.begin hrunning hqueued) hrunning (hloader'.trans hloader) ?_
            (hlistens'.trans hlistens)
          rw [RequestChannel.queued_grant]
          rw [hqueued, List.length_cons] at hn
          exact Nat.lt_of_succ_lt_succ hn

/-- Whether the server and its jobs have nothing to do. -/
def Settled (t : Transport) : Prop :=
  t.channel.queued = [] ∧ ∀ j ∈ t.jobs, j.left ≠ [] ∧ t.channel.IsFull j.stream

theorem settled_settle (h : Inv givenUp t) (hrunning : t.running = true)
    (hloader : t.channel.hasLoader = true) : t.settle.Settled := by
  refine ⟨?_, runJobs_left _ _⟩
  exact (queued_runJobs _ _).trans
    (queued_acceptAll h hrunning hloader (Nat.lt_succ_self _))

/-! ## What is still to be read -/

/-- How much reading a stream still takes to its end. -/
def unreadOf (answer : BlockRequest → List Block) (s : BlockStream) : Nat :=
  s.stage.unread ((answer s.request).length - s.received.length)

def unread (t : Transport) : Nat := (t.channel.streams.map (unreadOf t.answerTo)).sum

section

variable {answer : BlockRequest → List Block} {c : RequestChannel} {i : Nat} {s : BlockStream}

theorem unread_setStage (answer : BlockRequest → List Block) (st : Stage)
    (hs : c.streams[i]? = some s) :
    ((c.setStage i st).streams.map (unreadOf answer)).sum
        + s.stage.unread ((answer s.request).length - s.received.length)
      = (c.streams.map (unreadOf answer)).sum
        + st.unread ((answer s.request).length - s.received.length) :=
  sum_map_modify _ _ hs

theorem unread_grant_le (answer : BlockRequest → List Block) (hlisted : c.Listed) :
    (c.grant.streams.map (unreadOf answer)).sum ≤ (c.streams.map (unreadOf answer)).sum := by
  rcases c.grant_cases with ⟨hsame, -⟩ | ⟨i, rest, hwaiting, -, hgrant⟩
  · exact Nat.le_of_eq (by rw [hsame])
  · have hstage : c.stage? i = some .waiting := (hlisted.waiting i).mp (by simp [hwaiting])
    obtain ⟨s, hs, hwas⟩ := RequestChannel.exists_of_stage? hstage
    have hunread := unread_setStage answer .granted hs
    rw [hwas, Stage.unread, Stage.unread] at hunread
    rw [hgrant]
    show ((c.setStage i .granted).streams.map (unreadOf answer)).sum ≤ _
    omega

theorem unreadOf_eq_zero_iff : unreadOf answer s = 0 ↔ s.stage = .ended := by
  unfold unreadOf
  cases s.stage <;> simp [Stage.unread]

end

theorem unread_restage {i : Nat} {s : BlockStream} {c : RequestChannel} (st : Stage)
    (jobs : List Job) (hs : t.channel.streams[i]? = some s)
    (hstreams : c.streams = (t.channel.setStage i st).streams) :
    unread { t with channel := c, jobs := jobs }
        + s.stage.unread ((t.answerTo s.request).length - s.received.length)
      = t.unread + st.unread ((t.answerTo s.request).length - s.received.length) := by
  have hunread : unread { t with channel := c, jobs := jobs }
      = ((t.channel.setStage i st).streams.map (unreadOf t.answerTo)).sum :=
    congrArg (fun streams => (streams.map (unreadOf t.answerTo)).sum) hstreams
  rw [hunread]
  exact unread_setStage t.answerTo st hs

/-- **Whatever reading does, less is to be read after it.** -/
theorem unread_read_lt {i : Nat} {s : BlockStream} {out : Polled} {c : RequestChannel}
    (h : Inv givenUp t) (hs : t.channel.streams[i]? = some s)
    (hp : RequestChannel.Polls t.channel i s out c) :
    unread { t with channel := c } < t.unread := by
  cases hp with
  | @block rest complete b hwas =>
      have haccount := h.accounts.account i s hs
      rw [hwas] at haccount
      have hlength := haccount.receive.isPrefix.length_le
      rw [List.length_append, List.length_singleton] at hlength
      have hnoted := sum_map_modify (unreadOf t.answerTo)
        (fun s => { s with received := s.received ++ [b] })
        (RequestChannel.getElem?_setStage_self (.receiving rest complete) hs)
      have hunread := unread_setStage t.answerTo (.receiving rest complete) hs
      rw [hwas, Stage.unread, Stage.unread] at hunread
      simp only [unreadOf, Stage.unread, List.length_append, List.length_singleton] at hnoted
      show (((t.channel.setStage i (.receiving rest complete)).streams.modify i _).map
        (unreadOf t.answerTo)).sum < (t.channel.streams.map (unreadOf t.answerTo)).sum
      omega
  | last hwas =>
      have hunread := unread_restage .ended t.jobs hs rfl
      rw [hwas, Stage.unread, Stage.unread] at hunread
      omega
  | send _ hplace =>
      have hunread := unread_restage (c := t.channel.send i) (.receiving [] false) t.jobs hs rfl
      rcases hplace with ⟨hwas, -⟩ | hwas <;> rw [hwas, Stage.unread, Stage.unread] at hunread
        <;> omega
  | wait _ hwas _ =>
      have hunread := unread_restage
        (c := { t.channel.setStage i .waiting with waiting := t.channel.waiting ++ [i] })
        .waiting t.jobs hs rfl
      rw [hwas, Stage.unread, Stage.unread] at hunread
      omega
  | deaf hnot hunsent =>
      exact absurd hunsent (RequestChannel.not_isUnsent (h.closed (h.listening ▸ hnot)).2 hs)

/-- The other turns of the delivery do not add to what is to be read. -/
theorem Steps.unread_le (hsteps : Steps t turn t') (h : Inv givenUp t) (hturn : turn.Delivers) :
    t'.unread ≤ t.unread := by
  cases hsteps with
  | ask r _ => exact hturn.elim
  | read hs hpolls => exact Nat.le_of_lt (unread_read_lt h hs hpolls)
  | giveUp i => exact hturn.elim
  | leave => exact hturn.elim
  | begin _ _ =>
      exact unread_grant_le t.answerTo ⟨h.line.listed.waiting, h.line.listed.nodup⟩
  | close _ hqueued _ =>
      rw [close_eq hqueued]
      exact Nat.le_refl _
  | @send k j b rest buffer complete hjob _ hstage _ =>
      obtain ⟨s, hs, hwas⟩ := RequestChannel.exists_of_stage? hstage
      have hunread := unread_restage (.receiving (buffer ++ [b]) complete)
        (t.jobs.set k { j with left := rest }) hs rfl
      rw [hwas, Stage.unread, Stage.unread] at hunread
      omega
  | @finish k j buffer complete hjob _ hstage =>
      obtain ⟨s, hs, hwas⟩ := RequestChannel.exists_of_stage? hstage
      have hunread := unread_restage (.receiving buffer true) (t.jobs.eraseIdx k) hs rfl
      rw [hwas, Stage.unread, Stage.unread] at hunread
      omega
  | abandon _ _ => exact Nat.le_refl _

/-! ## Turns of the delivery while the server is there -/

/-- Whether requests are sent, served and answered. -/
structure Serving (t : Transport) : Prop where
  inv : Inv (fun _ => False) t
  room : 0 < t.channel.capacity
  running : t.running = true
  loader : t.channel.hasLoader = true

/-- What turns of the delivery bring from one transport to another. -/
structure Onward (t t' : Transport) : Prop where
  serving : Serving t'
  answer : t'.answerTo = t.answerTo
  requests : t'.channel.requests = t.channel.requests
  ended : ∀ i, t.channel.stage? i = some .ended → t'.channel.stage? i = some .ended
  unread : t'.unread ≤ t.unread

theorem Onward.refl (h : Serving t) : Onward t t := ⟨h, rfl, rfl, fun _ h => h, Nat.le_refl _⟩

theorem Onward.trans (h : Onward t t') (h' : Onward t' t'') : Onward t t'' :=
  ⟨h'.serving, h'.answer.trans h.answer, h'.requests.trans h.requests,
    fun i hi => h'.ended i (h.ended i hi), Nat.le_trans h'.unread h.unread⟩

/-- A stream that is over stays so. -/
theorem Steps.ended {i : Nat} (hsteps : Steps t turn t') (h : Inv givenUp t)
    (hturn : turn.Delivers) (hended : t.channel.stage? i = some .ended) :
    t'.channel.stage? i = some .ended := by
  have hne {k : Nat} {st : Stage} (hk : t.channel.stage? k = some st) (hst : st ≠ .ended) :
      i ≠ k := by
    rintro rfl
    rw [hk, Option.some_inj] at hended
    exact hst hended
  cases hsteps with
  | ask r _ => exact hturn.elim
  | read hs hpolls => exact hpolls.ended hs hended
  | giveUp i => exact hturn.elim
  | leave => exact hturn.elim
  | @begin j rest _ _ =>
      rcases RequestChannel.grant_cases
          { t.channel with queued := rest, taken := t.channel.taken ++ [j] } with
        ⟨hsame, -⟩ | ⟨k, _, hwaiting, -, hgrant⟩
      · rw [hsame]
        exact hended
      · have hstage : t.channel.stage? k = some .waiting :=
          (h.line.listed.waiting k).mp (hwaiting ▸ List.mem_cons_self)
        rw [hgrant]
        exact (RequestChannel.stage?_setStage_ne .granted
          (hne hstage Stage.noConfusion)).trans hended
  | close _ hqueued _ =>
      rw [close_eq hqueued]
      exact hended
  | send _ _ hstage _ =>
      exact (RequestChannel.stage?_setStage_ne _ (hne hstage Stage.noConfusion)).trans hended
  | finish _ _ hstage =>
      exact (RequestChannel.stage?_setStage_ne _ (hne hstage Stage.noConfusion)).trans hended
  | abandon _ _ => exact hended

/-- The server stays as long as new streams can be begun. -/
theorem Steps.running (hsteps : Steps t turn t') (hloader : t.channel.hasLoader = true) :
    t'.running = t.running := by
  cases hsteps with
  | close _ _ hsender =>
      rw [(RequestChannel.hasSender_eq_false_iff.mp hsender).1] at hloader
      cases hloader
  | _ => rfl

theorem Serving.onward_step (h : Serving t) (hturn : turn.Delivers) : Onward t (t.step turn) := by
  rcases step_cases h.inv.unsignalled h.inv.listening turn with hsteps | ⟨hsame, -⟩
  · have hinv := h.inv.deliver hturn
    obtain ⟨hanswer, hcapacity⟩ := h.inv.frame_step turn
    obtain ⟨hrequests, hloader⟩ := h.inv.requests_step turn
    have hnone : turn.request?.toList = [] := by
      cases turn with
      | ask r => exact hturn.elim
      | _ => rfl
    have hstays : turn ≠ .leave := by
      rintro rfl
      exact hturn
    have hrunning : (t.step turn).running = true := (hsteps.running h.loader).trans h.running
    rw [hnone, ite_self, List.append_nil] at hrequests
    rw [decide_eq_true hstays, Bool.and_true] at hloader
    exact ⟨⟨hinv, hcapacity ▸ h.room, hrunning, hloader.trans h.loader⟩, hanswer, hrequests,
      fun i hi => hsteps.ended h.inv hturn hi, hsteps.unread_le h.inv hturn⟩
  · rw [hsame]
    exact .refl h

/-- **The delivery goes onward.** -/
theorem Reaches.onward (h : Reaches t t') (hserving : Serving t) : Onward t t' := by
  obtain ⟨turns, hturns, rfl⟩ := h
  induction turns generalizing t with
  | nil => exact .refl hserving
  | cons turn turns ih =>
      have hstep := hserving.onward_step (hturns turn List.mem_cons_self)
      refine hstep.trans (ih hstep.serving fun turn hturn => ?_)
      exact hturns turn (List.mem_cons_of_mem _ hturn)

theorem Onward.exists_stream {i : Nat} {s : BlockStream} (h : Onward t t')
    (hs : t'.channel.streams[i]? = some s) : ∃ s', t.channel.streams[i]? = some s' := by
  have hi : i < t'.channel.requests.length := by
    rw [RequestChannel.requests, List.length_map]
    exact (List.getElem?_eq_some_iff.mp hs).1
  rw [h.requests, RequestChannel.requests, List.length_map] at hi
  exact ⟨_, List.getElem?_eq_getElem hi⟩

theorem Onward.ended_of_ended {i : Nat} {s : BlockStream} (h : Onward t t')
    (hs : t'.channel.streams[i]? = some s)
    (hended : ∀ s', t.channel.streams[i]? = some s' → s'.stage = .ended) : s.stage = .ended := by
  obtain ⟨s', hs'⟩ := h.exists_stream hs
  have hstage := h.ended i ((RequestChannel.stage?_of_getElem? hs').trans
    (congrArg some (hended s' hs')))
  rw [RequestChannel.stage?_of_getElem? hs, Option.some_inj] at hstage
  exact hstage

/-! ## Reading -/

/-- Reading a stream once makes less to be read, or the stream rests. -/
theorem unread_poll (h : Inv givenUp t) (i : Nat) :
    unread { t with channel := (t.channel.poll i).2 } < t.unread
      ∨ (t.channel.poll i).1.blocks = [] ∧ (t.channel.poll i).2 = t.channel
        ∧ Idle t (.read i) := by
  cases hs : t.channel.streams[i]? with
  | none =>
      rw [RequestChannel.poll_of_none hs]
      refine .inr ⟨rfl, rfl, fun s hsome => ?_⟩
      rw [hs] at hsome
      cases hsome
  | some s =>
      refine (RequestChannel.poll_cases hs).imp (unread_read_lt h hs) fun ⟨hsame, hrests⟩ => ?_
      refine ⟨hrests.blocks_eq_nil, hsame, fun s' hs' => ?_⟩
      rw [hs, Option.some_inj] at hs'
      exact hs' ▸ hrests

/-- What reading streams comes to: some are left to be read, and the others are
over. -/
structure Reads (t : Transport) (rs : List Reading) (c : RequestChannel) (left : List Reading) :
    Prop where
  reaches : Reaches t { t with channel := c }
  mem : ∀ r ∈ left, r ∈ rs
  ended : ∀ r ∈ rs, r ∉ left → ∀ s, c.streams[r.stream]? = some s → s.stage = .ended

theorem Reads.append {rs rs' left left' : List Reading} {c c' : RequestChannel} (h : Serving t)
    (hfirst : Reads t rs c left) (hrest : Reads { t with channel := c } rs' c' left') :
    Reads t (rs ++ rs') c' (left ++ left') where
  reaches := hfirst.reaches.trans hrest.reaches
  mem := by
    intro r hr
    exact List.mem_append.mpr ((List.mem_append.mp hr).imp (hfirst.mem r) (hrest.mem r))
  ended := by
    intro r hr hgone s hs
    obtain ⟨hgone, hgone'⟩ := not_or.mp (mt List.mem_append.mpr hgone)
    have hlater := hrest.reaches.onward (hfirst.reaches.onward h).serving
    rcases List.mem_append.mp hr with hr | hr
    · exact hlater.ended_of_ended hs (hfirst.ended r hr hgone)
    · exact hrest.ended r hr hgone' s hs

/-- Reading what one stream has ready makes less to be read, unless the stream
rests. -/
theorem readReady_spec {r : Reading} (n : Nat) (h : Serving t) (hwanted : r.wanted = none) :
    Reads t [r] (readReady n t.channel r).1 (readReady n t.channel r).2.toList
      ∧ (0 < n → unread { t with channel := (readReady n t.channel r).1 } < t.unread
        ∨ (readReady n t.channel r).1 = t.channel ∧ Idle t (.read r.stream)) := by
  obtain ⟨i, wanted⟩ := r
  obtain rfl : wanted = none := hwanted
  induction n generalizing t with
  | zero =>
      refine ⟨⟨.refl t, fun _ hr => hr, fun r hr hgone => ?_⟩, fun hn => ?_⟩
      · exact absurd hr hgone
      · exact absurd hn (Nat.lt_irrefl 0)
  | succ n ih =>
      have hread : Reaches t (t.step (.read i)) := .step t trivial
      have hpoll := unread_poll h.inv i
      have hover (s : BlockStream) := t.channel.ended_of_poll (i := i) (s := s)
      rw [step] at hread
      rw [readReady, if_neg (Option.some_ne_none 0).symm]
      generalize t.channel.poll i = polled at hread hpoll hover
      obtain ⟨out, c⟩ := polled
      have hdone (hout : out = .over ∨ out = .gone) : Reads t [⟨i, none⟩] c [] := by
        refine ⟨hread, fun r hr => absurd hr List.not_mem_nil, fun r hr _ s hs => ?_⟩
        obtain rfl := List.mem_singleton.mp hr
        exact hover s hout hs
      cases out with
      | block b =>
          have honward := hread.onward h
          obtain ⟨hmore, -⟩ := ih honward.serving
          have hless := (hmore.reaches.onward honward.serving).unread
          have hfirst := hpoll.resolve_right fun hrests => List.cons_ne_nil b [] hrests.1
          exact ⟨⟨hread.trans hmore.reaches, hmore.mem, hmore.ended⟩,
            fun _ => .inl (Nat.lt_of_le_of_lt hless hfirst)⟩
      | pending =>
          exact ⟨⟨hread, fun _ hr => hr, fun r hr hgone => absurd hr hgone⟩,
            fun _ => hpoll.imp_right And.right⟩
      | _ => exact ⟨hdone (by simp), fun _ => hpoll.imp_right And.right⟩

theorem readAll_cons (c : RequestChannel) (r : Reading) (rs : List Reading) :
    let first := readReady (RequestChannel.bufferSize + 2) c r
    let rest := readAll first.1 rs
    readAll c (r :: rs) = (rest.1, first.2.toList ++ rest.2) := rfl

/-- Reading what several streams have ready makes less to be read, unless they
all rest. -/
theorem readAll_spec {rs : List Reading} (h : Serving t) (hwanted : ∀ r ∈ rs, r.wanted = none) :
    Reads t rs (readAll t.channel rs).1 (readAll t.channel rs).2
      ∧ (unread { t with channel := (readAll t.channel rs).1 } < t.unread
        ∨ (readAll t.channel rs).1 = t.channel ∧ ∀ r ∈ rs, Idle t (.read r.stream)) := by
  induction rs generalizing t with
  | nil =>
      refine ⟨⟨.refl t, fun _ hr => hr, fun r hr hgone => absurd hr hgone⟩, .inr ⟨rfl, ?_⟩⟩
      exact fun r hr => absurd hr List.not_mem_nil
  | cons r rs ih =>
      obtain ⟨hfirst, hprogress⟩ :=
        readReady_spec (RequestChannel.bufferSize + 2) h (hwanted r List.mem_cons_self)
      have hserving := (hfirst.reaches.onward h).serving
      obtain ⟨hrest, hprogress'⟩ :=
        ih hserving fun r' hr' => hwanted r' (List.mem_cons_of_mem _ hr')
      rw [readAll_cons]
      refine ⟨hfirst.append h hrest, ?_⟩
      rcases hprogress (Nat.succ_pos _) with hless | ⟨hsame, hidle⟩
      · exact .inl (Nat.lt_of_le_of_lt (hrest.reaches.onward hserving).unread hless)
      · rw [hsame] at hprogress' ⊢
        exact hprogress'.imp_right fun hrests =>
          ⟨hrests.1, List.forall_mem_cons.mpr ⟨hidle, hrests.2⟩⟩

theorem readAll_of_ended {rs : List Reading} {c : RequestChannel}
    (hwanted : ∀ r ∈ rs, r.wanted = none)
    (hended : ∀ r ∈ rs, ∀ s, c.streams[r.stream]? = some s → s.stage = .ended) :
    readAll c rs = (c, []) := by
  induction rs with
  | nil => rfl
  | cons r rs ih =>
      have hfirst : readReady (RequestChannel.bufferSize + 2) c r = (c, none) := by
        rw [readReady, hwanted r List.mem_cons_self, if_neg nofun,
          RequestChannel.poll_of_ended (hended r List.mem_cons_self)]
      have hrest := ih (fun r' hr' => hwanted r' (List.mem_cons_of_mem _ hr'))
        fun r' hr' => hended r' (List.mem_cons_of_mem _ hr')
      rw [readAll_cons, hfirst, hrest]
      rfl

/-! ## Rounds of reading -/

/-- All that may go on is among some readings. -/
def CoveredBy (t : Transport) (rs : List Reading) : Prop :=
  ∀ i s, t.channel.streams[i]? = some s → s.stage = .ended ∨ ∃ r ∈ rs, r.stream = i

/-- Whether the server has done its part, or is still to be asked by everybody
who reads. -/
def Prepared (t : Transport) (rs : List Reading) : Prop :=
  t.Settled ∨ ∀ r ∈ rs, ∃ s, t.channel.streams[r.stream]? = some s ∧ s.stage = .unsent

/-- When nobody has anything to read, every stream is over. -/
theorem Settled.ended_of_idle {rs : List Reading} (hsettled : t.Settled) (h : Serving t)
    (hcover : t.CoveredBy rs) (hidle : ∀ r ∈ rs, Idle t (.read r.stream)) {i : Nat}
    {s : BlockStream} (hs : t.channel.streams[i]? = some s) : s.stage = .ended := by
  refine h.inv.ended_of_idle h.room (fun turn hturn => ?_) hs
  cases turn with
  | read k =>
      intro s hs
      rcases hcover k s hs with hended | ⟨r, hr, rfl⟩
      · rw [RequestChannel.poll_of_ended fun s' hs' => ?_]
        · exact .gone hended
        · rw [hs, Option.some_inj] at hs'
          exact hs' ▸ hended
      · exact hidle r hr s hs
  | serve =>
      have hsender : t.channel.hasSender = true := by
        rw [RequestChannel.hasSender, h.loader, Bool.true_or]
      exact fun _ => ⟨hsettled.1, hsender⟩
  | work k => exact fun j hj => hsettled.2 j (List.mem_of_getElem? hj)
  | ask r => exact hturn.elim
  | giveUp i => exact hturn.elim
  | leave => exact hturn.elim

/-- **In every round something is read**, until all streams are over. -/
theorem unread_readAll_lt {rs : List Reading} (h : Serving t) (hwanted : ∀ r ∈ rs, r.wanted = none)
    (hcover : t.CoveredBy rs) (hprepared : t.Prepared rs)
    (hleft : (readAll t.channel rs).2 ≠ []) :
    unread { t with channel := (readAll t.channel rs).1 } < t.unread := by
  obtain ⟨-, hprogress⟩ := readAll_spec h hwanted
  refine hprogress.resolve_right fun ⟨_, hidle⟩ => hleft ?_
  rcases hprepared with hsettled | hunsent
  · rw [readAll_of_ended hwanted fun r _ s hs => hsettled.ended_of_idle h hcover hidle hs]
  · cases rs with
    | nil => rfl
    | cons r rs =>
        -- a stream whose request is still to be sent has something to do
        obtain ⟨s, hs, hunsent⟩ := hunsent r List.mem_cons_self
        have hrests := hidle r List.mem_cons_self s hs
        generalize (t.channel.poll r.stream).1 = out at hrests
        cases hrests with
        | gone hended =>
            rw [hunsent] at hended
            cases hended
        | pending hwaits =>
            rw [hunsent] at hwaits
            rcases hwaits with hwaits | ⟨hwaits, -⟩ <;> cases hwaits

/-- **As many rounds as there is to read bring every stream to its end.** -/
theorem readRounds_spec {n : Nat} {rs : List Reading} (h : Serving t)
    (hwanted : ∀ r ∈ rs, r.wanted = none) (hcover : t.CoveredBy rs) (hprepared : t.Prepared rs)
    (hrounds : t.unread ≤ n) :
    Reaches t (readRounds n t rs)
      ∧ ∀ (i : Nat) (s : BlockStream), (readRounds n t rs).channel.streams[i]? = some s →
        s.stage = .ended := by
  induction n generalizing t rs with
  | zero =>
      refine ⟨.refl t, fun i s hs => ?_⟩
      have hnothing := List.sum_eq_zero_iff_forall_eq_nat.mp (Nat.le_zero.mp hrounds)
      exact unreadOf_eq_zero_iff.mp
        (hnothing _ (List.mem_map_of_mem (List.mem_of_getElem? hs)))
  | succ n ih =>
      obtain ⟨hreads, -⟩ := readAll_spec h hwanted
      have hless := unread_readAll_lt h hwanted hcover hprepared
      rw [readRounds]
      generalize readAll t.channel rs = out at hreads hless ⊢
      obtain ⟨c, rs'⟩ := out
      have honward := hreads.reaches.onward h
      -- what was over or is no more read is over, also later
      have hcovered {t' : Transport} (hlater : Onward { t with channel := c } t') :
          t'.CoveredBy rs' := by
        intro i s hs
        obtain ⟨s', hs'⟩ := (honward.trans hlater).exists_stream hs
        rcases hcover i s' hs' with hover | ⟨r, hr, rfl⟩
        · refine .inl ((honward.trans hlater).ended_of_ended hs fun s'' hs'' => ?_)
          rw [hs', Option.some_inj] at hs''
          exact hs'' ▸ hover
        · by_cases hmem : r ∈ rs'
          · exact .inr ⟨r, hmem, rfl⟩
          · exact .inl (hlater.ended_of_ended hs (hreads.ended r hr hmem))
      cases rs' with
      | nil =>
          refine ⟨hreads.reaches, fun i s hs => ?_⟩
          rcases hcovered (.refl honward.serving) i s hs with hover | ⟨r, hr, -⟩
          · exact hover
          · exact absurd hr List.not_mem_nil
      | cons r rest =>
          have hsettle := reaches_settle { t with channel := c }
          have honward' := hsettle.onward honward.serving
          have hsettled := settled_settle honward.serving.inv honward.serving.running
            honward.serving.loader
          have hnow : unread { t with channel := c } < t.unread := hless (List.cons_ne_nil r rest)
          have hlater := honward'.unread
          obtain ⟨hrounds, hover⟩ := ih honward'.serving
            (fun r' hr' => hwanted r' (hreads.mem r' hr')) (hcovered honward') (.inl hsettled)
            (by omega)
          exact ⟨(hreads.reaches.trans hsettle).trans hrounds, hover⟩

/-! ## A fetch -/

/-- Whether the server is there and all streams are over. -/
structure Quiet (t : Transport) : Prop extends Serving t where
  ended : ∀ (i : Nat) (s : BlockStream), t.channel.streams[i]? = some s → s.stage = .ended

theorem Serving.ask (h : Serving t) (r : BlockRequest) :
    Serving { t with channel := (t.channel.retrieve r).2 } :=
  ⟨h.inv.ask r h.loader, h.room, h.running, h.loader⟩

/-- Streams are begun at the end, and nothing is sent yet. -/
theorem beginAll_eq (c : RequestChannel) (rs : List BlockRequest) :
    beginAll c rs = (List.range' c.streams.length rs.length,
      { c with streams := c.streams ++ rs.map fun r => ⟨r, .unsent, []⟩ }) := by
  induction rs generalizing c with
  | nil => rw [List.map_nil, List.append_nil]; rfl
  | cons r rs ih => simp [beginAll, ih, RequestChannel.retrieve, List.range'_succ]

/-- A transport in which streams are begun. -/
def begun (t : Transport) (rs : List BlockRequest) : Transport :=
  { t with channel := (beginAll t.channel rs).2 }

/-- The readings of the streams that are begun, all to their ends. -/
def readings (t : Transport) (rs : List BlockRequest) : List Reading :=
  (List.range' t.channel.streams.length rs.length).map fun i => ⟨i, none⟩

theorem wanted_readings (t : Transport) (rs : List BlockRequest) :
    ∀ r ∈ t.readings rs, r.wanted = none :=
  List.forall_mem_map.mpr fun _ _ => rfl

theorem Serving.begun (h : Serving t) (rs : List BlockRequest) : Serving (t.begun rs) := by
  induction rs generalizing t with
  | nil => exact h
  | cons r rs ih => exact ih (h.ask r)

theorem streams_begun (t : Transport) (rs : List BlockRequest) :
    (t.begun rs).channel.streams = t.channel.streams ++ rs.map fun r => ⟨r, .unsent, []⟩ := by
  rw [begun, beginAll_eq]

theorem requests_begun (t : Transport) (rs : List BlockRequest) :
    (t.begun rs).channel.requests = t.channel.requests ++ rs := by
  rw [RequestChannel.requests, streams_begun, List.map_append, List.map_map]
  exact congrArg _ (List.map_id rs)

/-- The rounds that a fetch makes are as many as its requests take to be read. -/
theorem foldl_rounds (answer : BlockRequest → List Block) (rs : List BlockRequest) (n : Nat) :
    rs.foldl (fun n r => n + (answer r).length + 4) n
      = n + ((rs.map fun r => ⟨r, .unsent, []⟩).map (unreadOf answer)).sum := by
  induction rs generalizing n with
  | nil => rfl
  | cons r rs ih =>
      rw [List.foldl_cons, ih, List.map_cons, List.map_cons, List.sum_cons, unreadOf, Stage.unread]
      simp only [List.length_nil, Nat.sub_zero]
      omega

theorem fetchAll_eq (t : Transport) (rs : List BlockRequest) :
    t.fetchAll rs none =
      let rounds := rs.foldl (fun n r => n + (t.answerTo r).length + 4) 0
      let t' := readRounds rounds (t.begun rs) (t.readings rs)
      ((List.range' t.channel.streams.length rs.length).map t'.receivedBy, t') := by
  rw [fetchAll, begun, beginAll_eq]
  rfl

theorem map_range'_eq {α β : Type} {f : Nat → β} {g : α → β} {n : Nat} {xs : List α}
    (h : ∀ k x, xs[k]? = some x → f (n + k) = g x) :
    (List.range' n xs.length).map f = xs.map g := by
  apply List.ext_getElem?
  intro k
  rw [List.getElem?_map, List.getElem?_map]
  by_cases hk : k < xs.length
  · rw [List.getElem?_range' hk, List.getElem?_eq_getElem hk, Nat.one_mul]
    exact congrArg some (h k _ (List.getElem?_eq_getElem hk))
  · rw [List.getElem?_eq_none (by simpa using hk), List.getElem?_eq_none (by simpa using hk)]
    rfl

theorem Quiet.unread_begun (h : Quiet t) (rs : List BlockRequest) :
    (t.begun rs).unread = rs.foldl (fun n r => n + (t.answerTo r).length + 4) 0 := by
  have hold : (t.channel.streams.map (unreadOf t.answerTo)).sum = 0 := by
    rw [List.sum_eq_zero_iff_forall_eq_nat, List.forall_mem_map]
    intro s hs
    obtain ⟨i, hi⟩ := List.getElem?_of_mem hs
    exact unreadOf_eq_zero_iff.mpr (h.ended i s hi)
  rw [foldl_rounds, unread, streams_begun, List.map_append, List.sum_append]
  exact congrArg (· + _) hold

/-- Only the streams that were begun are to be read. -/
theorem Quiet.coveredBy_begun (h : Quiet t) (rs : List BlockRequest) :
    (t.begun rs).CoveredBy (t.readings rs) := by
  intro i s hs
  rw [streams_begun] at hs
  rcases Nat.lt_or_ge i t.channel.streams.length with hi | hi
  · rw [List.getElem?_append_left hi] at hs
    exact .inl (h.ended i s hs)
  · have hlast := (List.getElem?_eq_some_iff.mp hs).1
    rw [List.length_append, List.length_map] at hlast
    exact .inr ⟨⟨i, none⟩, List.mem_map_of_mem (List.mem_range'_1.mpr ⟨hi, hlast⟩), rfl⟩

theorem prepared_begun (t : Transport) (rs : List BlockRequest) :
    (t.begun rs).Prepared (t.readings rs) := by
  refine .inr (List.forall_mem_map.mpr fun i hi => ?_)
  obtain ⟨hi, hlast⟩ := List.mem_range'_1.mp hi
  have hr : i - t.channel.streams.length < rs.length := by omega
  refine ⟨⟨rs[i - t.channel.streams.length], .unsent, []⟩, ?_, rfl⟩
  rw [streams_begun, List.getElem?_append_right hi, List.getElem?_map,
    List.getElem?_eq_getElem hr]
  rfl

/-- **A fetch from a quiet transport gives all that was asked for**, and leaves
the transport quiet, with the same answers. -/
theorem Quiet.fetchAll (h : Quiet t) (rs : List BlockRequest) :
    (t.fetchAll rs none).1 = rs.map t.answerTo ∧ Quiet (t.fetchAll rs none).2
      ∧ (t.fetchAll rs none).2.answerTo = t.answerTo := by
  have hserving := h.toServing.begun rs
  obtain ⟨hreaches, hended⟩ := readRounds_spec hserving (t.wanted_readings rs)
    (h.coveredBy_begun rs) (prepared_begun t rs) (Nat.le_of_eq (h.unread_begun rs))
  rw [fetchAll_eq]
  dsimp only
  generalize readRounds _ (t.begun rs) (t.readings rs) = t' at hreaches hended ⊢
  have honward := hreaches.onward hserving
  refine ⟨map_range'_eq fun k r hr => ?_, ⟨honward.serving, hended⟩, honward.answer⟩
  have hrequest : t'.channel.requests[t.channel.streams.length + k]? = some r := by
    have hlength : t.channel.requests.length = t.channel.streams.length := List.length_map _
    rw [honward.requests, requests_begun, ← hlength,
      List.getElem?_append_right (Nat.le_add_right ..), Nat.add_sub_cancel_left]
    exact hr
  rw [RequestChannel.requests, List.getElem?_map, Option.map_eq_some_iff] at hrequest
  obtain ⟨s, hs, rfl⟩ := hrequest
  have haccount := honward.serving.inv.accounts.account _ s hs
  rw [hended _ s hs] at haccount
  rw [receivedBy, hs]
  exact (haccount.eq_of_ended not_false).trans (congrFun honward.answer s.request)

theorem quiet_overStores {capacity : Nat} (hroom : 0 < capacity)
    (stores : List (PublicKey × Store)) : Quiet (overStores capacity stores) :=
  ⟨⟨.start _ _ _, hroom, rfl, rfl⟩, nofun⟩

/-- **A loader over a quiet transport answers what was asked for**, every time. -/
theorem Quiet.retrieve (h : Quiet t) (height : UInt64) (peer : PublicKey) :
    (loader.retrieve t height peer).1 = t.answerTo ⟨peer, height⟩
      ∧ Quiet (loader.retrieve t height peer).2
      ∧ (loader.retrieve t height peer).2.answerTo = t.answerTo := by
  obtain ⟨hanswers, hquiet, hsame⟩ := h.fetchAll [⟨peer, height⟩]
  refine ⟨?_, hquiet, hsame⟩
  show (t.fetchAll [⟨peer, height⟩] none).1.flatten = _
  rw [hanswers]
  exact List.append_nil _

/-- **Fetching over stores answers as a script does that serves their chains.** -/
theorem fetchAll_overStores {capacity : Nat} (hroom : 0 < capacity)
    {stores : List (PublicKey × Store)} (hstores : ∀ x ∈ stores, Numbered x.2.blocks)
    (rs : List BlockRequest) :
    let script := Script.serving (stores.map fun x => (x.1, x.2.blocks))
    ((overStores capacity stores).fetchAll rs none).1
      = rs.map fun r => (script.retrieve r.height r.peer).1 := by
  intro script
  rw [((quiet_overStores hroom stores).fetchAll rs).1]
  refine List.map_congr_left fun r _ => ?_
  exact (answerTo_overStores capacity hstores r).trans (retrieve_serving_stores stores r).symm

end

end Transport

end LedgerCommit
