import LedgerCommit.Proofs.RequestLine
import LedgerCommit.Transport.Server

/-!
# Runs of the transport

Readers, the server and its jobs take turns in any order. At any time a block
of the answer to a request is in one place: it was received by the reader, it
waits in the buffer of the stream, or it is left to a job or to the queue of
requests. Every turn keeps this account, so what a reader has received is a
front part of the answer to its own request, and all of it when the stream is
over.
-/

namespace LedgerCommit

namespace Transport

/-! ## The account of a stream -/

/-- What jobs have left for a stream. -/
def owed (jobs : List Job) (i : Nat) : List (List Block) :=
  (jobs.filter (·.stream = i)).map (·.left)

/-- The account of a stream: where the blocks of the answer `whole` are, given
how far the stream has come, what was received, and what is owed. A stream
that was given up may be over early. -/
inductive Account (whole : List Block) (givenUp : Prop) :
    Stage → List Block → List (List Block) → Prop where
  | unsent {stage : Stage} : stage.IsUnsent → Account whole givenUp stage [] []
  /-- One job, or the queue, has the rest of the answer. -/
  | receiving {received buffer left : List Block} : received ++ buffer ++ left = whole →
      Account whole givenUp (.receiving buffer false) received [left]
  | complete {received buffer : List Block} : received ++ buffer = whole →
      Account whole givenUp (.receiving buffer true) received []
  | ended {received : List Block} {left : List (List Block)} : received <+: whole →
      (¬ givenUp → received = whole) → Account whole givenUp .ended received left

/-- All streams have their accounts, and jobs are for streams that there are. -/
structure Accounts (answer : BlockRequest → List Block) (givenUp : Nat → Prop)
    (streams : List BlockStream) (jobs : List Job) : Prop where
  known : ∀ j ∈ jobs, j.stream < streams.length
  account : ∀ i s, streams[i]? = some s →
    Account (answer s.request) (givenUp i) s.stage s.received (owed jobs i)

section

variable {answer : BlockRequest → List Block} {givenUp : Nat → Prop} {streams : List BlockStream}
  {jobs : List Job} {whole : List Block} {stage : Stage} {received : List Block}
  {left : List (List Block)} {dropped : Prop}

theorem owed_cons_self (j : Job) (jobs : List Job) :
    owed (j :: jobs) j.stream = j.left :: owed jobs j.stream := by
  simp [owed]

theorem owed_cons_ne {j : Job} {i : Nat} (h : i ≠ j.stream) (jobs : List Job) :
    owed (j :: jobs) i = owed jobs i := by
  rw [owed, List.filter_cons_of_neg (by simpa using h.symm)]
  rfl

theorem owed_eq_nil {i : Nat} (h : ∀ j ∈ jobs, j.stream ≠ i) : owed jobs i = [] := by
  rw [owed, List.map_eq_nil_iff, List.filter_eq_nil_iff]
  simpa using h

/-- What was received is a front part of the answer. -/
theorem Account.isPrefix (h : Account whole dropped stage received left) : received <+: whole := by
  cases h with
  | unsent _ => exact List.nil_prefix
  | receiving hwhole => exact ⟨_, by rw [← List.append_assoc]; exact hwhole⟩
  | complete hwhole => exact ⟨_, hwhole⟩
  | ended hfront _ => exact hfront

theorem Account.of_unsent (h : Account whole dropped stage received left)
    (hunsent : stage.IsUnsent) : received = [] ∧ left = [] := by
  cases h with
  | unsent _ => exact ⟨rfl, rfl⟩
  | receiving _ => exact hunsent.elim
  | complete _ => exact hunsent.elim
  | ended _ _ => exact hunsent.elim

/-- Between sending and waiting to send nothing changes hands. -/
theorem Account.restage {stage' : Stage} (h : Account whole dropped stage received left)
    (hunsent : stage.IsUnsent) (hunsent' : stage'.IsUnsent) :
    Account whole dropped stage' received left := by
  obtain ⟨rfl, rfl⟩ := h.of_unsent hunsent
  exact .unsent hunsent'

/-- A block goes from the buffer to the reader. -/
theorem Account.receive {b : Block} {rest : List Block} {complete : Bool}
    (h : Account whole dropped (.receiving (b :: rest) complete) received left) :
    Account whole dropped (.receiving rest complete) (received ++ [b]) left := by
  cases h with
  | unsent hunsent => exact hunsent.elim
  | receiving hwhole => exact .receiving (by simpa using hwhole)
  | complete hwhole => exact .complete (by simpa using hwhole)

/-- A block goes from the job to the buffer. -/
theorem Account.respond {b : Block} {buffer rest : List Block} {complete : Bool}
    (h : Account whole dropped (.receiving buffer complete) received ((b :: rest) :: left)) :
    Account whole dropped (.receiving (buffer ++ [b]) complete) received (rest :: left) := by
  cases h with
  | receiving hwhole => exact .receiving (by simpa using hwhole)

/-- The job for a stream is done. -/
theorem Account.finish {buffer : List Block} {complete : Bool}
    (h : Account whole dropped (.receiving buffer complete) received ([] :: left)) :
    Account whole dropped (.receiving buffer true) received left := by
  cases h with
  | receiving hwhole => exact .complete (by simpa using hwhole)

/-- Nobody answers a stream that is over. -/
theorem Account.abandon {l : List Block} (h : Account whole dropped stage received (l :: left))
    (hclosed : ∀ buffer complete, stage ≠ .receiving buffer complete) :
    Account whole dropped stage received left := by
  cases h with
  | receiving _ => exact absurd rfl (hclosed _ _)
  | ended hfront hall => exact .ended hfront hall

/-- A stream is over when everything was received. -/
theorem Account.close (h : Account whole dropped (.receiving [] true) received left) :
    Account whole dropped .ended received left := by
  cases h with
  | unsent hunsent => exact hunsent.elim
  | complete hwhole =>
      rw [List.append_nil] at hwhole
      exact .ended (hwhole ▸ List.prefix_rfl) fun _ => hwhole

theorem Account.eq_of_ended (h : Account whole dropped .ended received left) (hkept : ¬ dropped) :
    received = whole := by
  cases h with
  | unsent hunsent => exact hunsent.elim
  | ended _ hall => exact hall hkept

/-- A stream that was given up has received what it has received. -/
theorem Account.giveUp (h : Account whole dropped stage received left) (hdropped : dropped) :
    Account whole dropped .ended received left :=
  .ended h.isPrefix fun hnot => absurd hdropped hnot

/-- The order of the jobs does not matter. -/
theorem Account.perm {left' : List (List Block)} (h : Account whole dropped stage received left)
    (hperm : left.Perm left') : Account whole dropped stage received left' := by
  cases h with
  | unsent hunsent => rw [← hperm.nil_eq]; exact .unsent hunsent
  | receiving hwhole => rw [List.perm_singleton.mp hperm.symm]; exact .receiving hwhole
  | complete hwhole => rw [← hperm.nil_eq]; exact .complete hwhole
  | ended hfront hall => exact .ended hfront hall

theorem Accounts.perm {jobs' : List Job} (h : Accounts answer givenUp streams jobs)
    (hperm : jobs.Perm jobs') : Accounts answer givenUp streams jobs' where
  known := fun j hj => h.known j (hperm.mem_iff.mpr hj)
  account := fun i s hs => (h.account i s hs).perm ((hperm.filter _).map _)

/-- A change to one stream and the jobs for it concerns no other account. -/
theorem Accounts.change {streams' : List BlockStream} {jobs' : List Job} {i : Nat}
    (h : Accounts answer givenUp streams jobs) (hlength : streams'.length = streams.length)
    (hothers : ∀ k, k ≠ i → streams'[k]? = streams[k]? ∧ owed jobs' k = owed jobs k)
    (hknown : ∀ j ∈ jobs', j.stream < streams.length)
    (hhere : ∀ s, streams'[i]? = some s →
      Account (answer s.request) (givenUp i) s.stage s.received (owed jobs' i)) :
    Accounts answer givenUp streams' jobs' where
  known := by rwa [hlength]
  account := by
    intro k s hs
    by_cases hk : k = i
    · subst hk
      exact hhere s hs
    · obtain ⟨hstream, howed⟩ := hothers k hk
      rw [howed]
      exact h.account k s (hstream ▸ hs)

/-- A new stream begins with an empty account. -/
theorem Accounts.ask (h : Accounts answer givenUp streams jobs) (r : BlockRequest) :
    Accounts answer givenUp (streams ++ [⟨r, .unsent, []⟩]) jobs where
  known := fun j hj => by
    rw [List.length_append]
    exact Nat.lt_add_right _ (h.known j hj)
  account := by
    intro i s hs
    rcases Nat.lt_trichotomy i streams.length with hi | rfl | hi
    · rw [List.getElem?_append_left hi] at hs
      exact h.account i s hs
    · rw [List.getElem?_concat_length] at hs
      cases hs
      rw [owed_eq_nil fun j hj => Nat.ne_of_lt (h.known j hj)]
      exact .unsent trivial
    · rw [List.getElem?_eq_none (by rw [List.length_append, List.length_singleton]; omega)] at hs
      cases hs

/-! ### What the operations on the channel do to the accounts -/

variable {c c' : RequestChannel} {i : Nat} {s : BlockStream} {st : Stage} {jobs' : List Job}

/-- A stream moves on, and with it the jobs for it. -/
theorem Accounts.setStage (h : Accounts answer givenUp c.streams jobs)
    (hs : c.streams[i]? = some s) (hothers : ∀ k, k ≠ i → owed jobs' k = owed jobs k)
    (hknown : ∀ j ∈ jobs', j.stream < c.streams.length)
    (hhere : Account (answer s.request) (givenUp i) st s.received (owed jobs' i)) :
    Accounts answer givenUp (c.setStage i st).streams jobs' := by
  refine h.change (i := i) (List.length_modify ..) ?_ hknown ?_
  · exact fun k hk => ⟨RequestChannel.getElem?_setStage_ne st hk, hothers k hk⟩
  · intro s' hs'
    rw [RequestChannel.getElem?_setStage_self st hs, Option.some_inj] at hs'
    rw [← hs']
    exact hhere

/-- A stream moves on without the jobs. -/
theorem Accounts.setStage_alone (h : Accounts answer givenUp c.streams jobs)
    (hs : c.streams[i]? = some s)
    (hhere : Account (answer s.request) (givenUp i) st s.received (owed jobs i)) :
    Accounts answer givenUp (c.setStage i st).streams jobs :=
  h.setStage hs (fun _ _ => rfl) h.known hhere

/-- Room that is set aside changes no account. -/
theorem Accounts.grant (h : Accounts answer givenUp c.streams jobs) (hline : c.Listed) :
    Accounts answer givenUp c.grant.streams jobs := by
  rcases c.grant_cases with ⟨hsame, -⟩ | ⟨i, rest, hwaiting, -, hgrant⟩
  · rwa [hsame]
  · have hstage : c.stage? i = some .waiting := (hline.waiting i).mp (by simp [hwaiting])
    obtain ⟨s, hs, hwas⟩ := RequestChannel.exists_of_stage? hstage
    rw [hgrant]
    exact h.setStage_alone hs ((h.account i s hs).restage (by rw [hwas]; trivial) trivial)

/-- Reading a block changes the account of its stream only. -/
theorem Accounts.receive {b : Block} {rest : List Block} {complete : Bool}
    (h : Accounts answer givenUp c.streams jobs) (hs : c.streams[i]? = some s)
    (hstage : s.stage = .receiving (b :: rest) complete) :
    Accounts answer givenUp ((c.setStage i (.receiving rest complete)).noteReceived i b).streams
      jobs := by
  refine h.change (i := i) (by simp [RequestChannel.noteReceived, RequestChannel.setStage])
    ?_ h.known ?_
  · intro k hk
    rw [RequestChannel.getElem?_noteReceived_ne b hk, RequestChannel.getElem?_setStage_ne _ hk]
    exact ⟨rfl, rfl⟩
  · intro s' hs'
    have haccount := h.account i s hs
    rw [hstage] at haccount
    have hnew : s' = { s with
        stage := .receiving rest complete, received := s.received ++ [b] } := by
      simpa [RequestChannel.noteReceived, RequestChannel.setStage, hs, eq_comm] using hs'
    rw [hnew]
    exact haccount.receive

end

/-! ## Turns -/

/-- Whose turn it is. -/
inductive Turn where
  | ask (r : BlockRequest)
  | read (i : Nat)
  | giveUp (i : Nat)
  /-- No more streams will be begun. -/
  | leave
  | serve
  | work (k : Nat)
  deriving DecidableEq

/-- The request that a turn asks for. -/
def Turn.request? : Turn → Option BlockRequest
  | .ask r => some r
  | .read _ | .giveUp _ | .leave | .serve | .work _ => none

/-- Take a turn. One of somebody who has to wait, or who is gone, changes
nothing. -/
def step (t : Transport) : Turn → Transport
  | .ask r => if t.channel.hasLoader then { t with channel := (t.channel.retrieve r).2 } else t
  | .read i => { t with channel := (t.channel.poll i).2 }
  | .giveUp i => { t with channel := t.channel.dropStream i }
  | .leave => { t with channel := t.channel.dropLoader }
  | .serve => t.accept.getD t
  | .work k => (t.work k).getD t

/-- The transport after some turns. -/
def run (t : Transport) (turns : List Turn) : Transport := turns.foldl step t

theorem run_cons (t : Transport) (turn : Turn) (turns : List Turn) :
    t.run (turn :: turns) = (t.step turn).run turns := rfl

/-- The ways in which a turn changes a transport that nobody has told to end. -/
inductive Steps (t : Transport) : Turn → Transport → Prop where
  | ask (r : BlockRequest) : t.channel.hasLoader = true →
      Steps t (.ask r) { t with channel := (t.channel.retrieve r).2 }
  | read {i : Nat} {s : BlockStream} {c : RequestChannel} : t.channel.streams[i]? = some s →
      RequestChannel.Polls t.channel i s (t.channel.poll i).1 c →
      Steps t (.read i) { t with channel := c }
  | giveUp (i : Nat) : Steps t (.giveUp i) { t with channel := t.channel.dropStream i }
  | leave : Steps t .leave { t with channel := t.channel.dropLoader }
  | begin {i : Nat} {rest : List Nat} : t.running = true → t.channel.queued = i :: rest →
      Steps t .serve { t with
        channel := .grant { t.channel with queued := rest, taken := t.channel.taken ++ [i] }
        jobs := t.jobs ++ [⟨i, t.answerToStream i⟩] }
  /-- Nobody is left to send a request. -/
  | close : t.running = true → t.channel.queued = [] → t.channel.hasSender = false →
      Steps t .serve t.close
  | send {k : Nat} {j : Job} {b : Block} {rest buffer : List Block} {complete : Bool} :
      t.jobs[k]? = some j → j.left = b :: rest →
      t.channel.stage? j.stream = some (.receiving buffer complete) →
      buffer.length < RequestChannel.bufferSize →
      Steps t (.work k) { t with
        channel := t.channel.setStage j.stream (.receiving (buffer ++ [b]) complete)
        jobs := t.jobs.set k { j with left := rest } }
  | finish {k : Nat} {j : Job} {buffer : List Block} {complete : Bool} :
      t.jobs[k]? = some j → j.left = [] →
      t.channel.stage? j.stream = some (.receiving buffer complete) →
      Steps t (.work k) { t with
        channel := t.channel.setStage j.stream (.receiving buffer true)
        jobs := t.jobs.eraseIdx k }
  /-- The stream of the job is over. -/
  | abandon {k : Nat} {j : Job} : t.jobs[k]? = some j →
      (∀ buffer complete, t.channel.stage? j.stream ≠ some (.receiving buffer complete)) →
      Steps t (.work k) { t with jobs := t.jobs.eraseIdx k }

/-- When a turn has nothing to do. -/
def Idle (t : Transport) : Turn → Prop
  | .ask _ => t.channel.hasLoader = false
  | .read i => ∀ s, t.channel.streams[i]? = some s → t.channel.Rests s (t.channel.poll i).1
  | .giveUp _ | .leave => False
  | .serve => t.running = true → t.channel.queued = [] ∧ t.channel.hasSender = true
  | .work k => ∀ j, t.jobs[k]? = some j → j.left ≠ [] ∧ t.channel.IsFull j.stream

section

variable {t t' : Transport} {turn : Turn}

theorem accept_cases (hcalm : t.signalled = false) (hlistens : t.channel.listening = t.running) :
    Steps t .serve (t.step .serve) ∨ t.step .serve = t ∧ Idle t .serve := by
  by_cases hrunning : t.running = true
  · rw [hrunning] at hlistens
    cases hqueued : t.channel.queued with
    | cons i rest =>
        have haccept : t.step .serve = { t with
            channel := .grant { t.channel with queued := rest, taken := t.channel.taken ++ [i] }
            jobs := t.jobs ++ [⟨i, t.answerToStream i⟩] } := by
          simp [step, accept, RequestChannel.take, hrunning, hcalm, hlistens, hqueued]
        rw [haccept]
        exact .inl (.begin hrunning hqueued)
    | nil =>
        cases hsender : t.channel.hasSender with
        | true =>
            refine .inr ⟨?_, fun _ => ⟨hqueued, hsender⟩⟩
            simp [step, accept, RequestChannel.take, hrunning, hcalm, hlistens, hqueued, hsender]
        | false =>
            have haccept : t.step .serve = t.close := by
              simp [step, accept, RequestChannel.take, hrunning, hcalm, hlistens, hqueued, hsender]
            rw [haccept]
            exact .inl (.close hrunning hqueued hsender)
  · refine .inr ⟨?_, fun h => absurd h hrunning⟩
    simp [step, accept, hrunning]

theorem work_cases (t : Transport) (k : Nat) :
    Steps t (.work k) (t.step (.work k)) ∨ t.step (.work k) = t ∧ Idle t (.work k) := by
  cases hjob : t.jobs[k]? with
  | none =>
      refine .inr ⟨?_, fun j hj => ?_⟩
      · simp [step, work, hjob]
      · rw [hjob] at hj
        cases hj
  | some j =>
      cases hleft : j.left with
      | nil =>
          by_cases hopen : ∃ buffer complete,
              t.channel.stage? j.stream = some (.receiving buffer complete)
          · obtain ⟨buffer, complete, hstage⟩ := hopen
            have hwork : t.step (.work k) = { t with
                channel := t.channel.setStage j.stream (.receiving buffer true)
                jobs := t.jobs.eraseIdx k } := by
              simp [step, work, stepJob, hjob, hleft, RequestChannel.finish, hstage]
            rw [hwork]
            exact .inl (.finish hjob hleft hstage)
          · have hclosed : ∀ buffer complete,
                t.channel.stage? j.stream ≠ some (.receiving buffer complete) :=
              fun buffer complete hstage => hopen ⟨buffer, complete, hstage⟩
            have hwork : t.step (.work k) = { t with jobs := t.jobs.eraseIdx k } := by
              simp [step, work, stepJob, hjob, hleft, RequestChannel.finish_of_closed hclosed]
            rw [hwork]
            exact .inl (.abandon hjob hclosed)
      | cons b rest =>
          rcases t.channel.respond_cases j.stream b with
            ⟨buffer, complete, hstage, hroom, hsent⟩ | ⟨hfull, hsent⟩ | ⟨hclosed, hsent⟩
          · have hwork : t.step (.work k) = { t with
                channel := t.channel.setStage j.stream (.receiving (buffer ++ [b]) complete)
                jobs := t.jobs.set k { j with left := rest } } := by
              simp [step, work, stepJob, hjob, hleft, hsent]
            rw [hwork]
            exact .inl (.send hjob hleft hstage hroom)
          · refine .inr ⟨?_, fun j' hj' => ?_⟩
            · simp [step, work, stepJob, hjob, hleft, hsent]
            · rw [hjob, Option.some_inj] at hj'
              rw [← hj', hleft]
              exact ⟨List.cons_ne_nil _ _, hfull⟩
          · have hwork : t.step (.work k) = { t with jobs := t.jobs.eraseIdx k } := by
              simp [step, work, stepJob, hjob, hleft, hsent,
                RequestChannel.finish_of_closed hclosed]
            rw [hwork]
            exact .inl (.abandon hjob hclosed)

/-- **A turn goes one of these ways**, or there is nothing to do. -/
theorem step_cases (hcalm : t.signalled = false) (hlistens : t.channel.listening = t.running)
    (turn : Turn) : Steps t turn (t.step turn) ∨ t.step turn = t ∧ Idle t turn := by
  cases turn with
  | ask r =>
      by_cases hloader : t.channel.hasLoader = true
      · rw [step, if_pos hloader]
        exact .inl (.ask r hloader)
      · rw [step, if_neg hloader]
        exact .inr ⟨rfl, Bool.eq_false_iff.mpr hloader⟩
  | read i =>
      cases hs : t.channel.streams[i]? with
      | none =>
          refine .inr ⟨?_, fun s hsome => ?_⟩
          · rw [step, RequestChannel.poll_of_none hs]
          · rw [hs] at hsome
            cases hsome
      | some s =>
          rcases RequestChannel.poll_cases hs with hpolls | ⟨hsame, hrests⟩
          · exact .inl (.read hs hpolls)
          · refine .inr ⟨?_, fun s' hs' => ?_⟩
            · rw [step, hsame]
            · rw [hs, Option.some_inj] at hs'
              exact hs' ▸ hrests
  | giveUp i => exact .inl (.giveUp i)
  | leave => exact .inl .leave
  | serve => exact accept_cases hcalm hlistens
  | work k => exact work_cases t k

end

/-! ## What every turn keeps -/

/-- The jobs that requests become. -/
def jobsFor (t : Transport) (queued : List Nat) : List Job :=
  queued.map fun i => ⟨i, t.answerToStream i⟩

/-- The answers still to be given: to the requests in the channel, and what is
left to the jobs. -/
def duties (t : Transport) : List Job := t.jobsFor t.channel.queued ++ t.jobs

/-- What holds of a transport that nobody has told to end, when only the
streams of which `givenUp` holds were given up. -/
structure Inv (givenUp : Nat → Prop) (t : Transport) : Prop where
  accounts : Accounts t.answerTo givenUp t.channel.streams t.duties
  line : t.channel.Line
  unsignalled : t.signalled = false
  listening : t.channel.listening = t.running
  /-- The server leaves only when everybody who could ask has left. -/
  closed : t.running = false → t.channel.queued = [] ∧ t.channel.hasSender = false

section

variable {t t' : Transport} {turn : Turn} {givenUp : Nat → Prop} {i : Nat} {s : BlockStream}

theorem answerToStream_of_getElem? (h : t.channel.streams[i]? = some s) :
    t.answerToStream i = t.answerTo s.request := by
  rw [answerToStream, h]

/-- The duties depend on the streams through their requests only. -/
theorem duties_eq {c : RequestChannel} (hrequests : c.requests = t.channel.requests)
    (jobs : List Job) : duties { t with channel := c, jobs := jobs }
      = t.jobsFor c.queued ++ jobs := by
  have hanswer : ∀ i,
      answerToStream { t with channel := c, jobs := jobs } i = t.answerToStream i := by
    intro i
    have hi : c.streams[i]?.map (·.request) = t.channel.streams[i]?.map (·.request) := by
      rw [← List.getElem?_map, ← List.getElem?_map]
      exact congrArg (·[i]?) hrequests
    unfold answerToStream
    cases hnew : c.streams[i]? with
    | none =>
        rw [hnew, Option.map_none, eq_comm, Option.map_eq_none_iff] at hi
        rw [hi]
    | some s =>
        rw [hnew, Option.map_some, eq_comm, Option.map_eq_some_iff] at hi
        obtain ⟨s', hs', hrequest⟩ := hi
        rw [hs']
        exact congrArg t.answerTo hrequest.symm
  simp only [duties, jobsFor, hanswer]

/-- What a change of channel and jobs has to keep, when no request is added. -/
theorem Inv.move {c : RequestChannel} {jobs : List Job} (h : Inv givenUp t)
    (hrequests : c.requests = t.channel.requests)
    (haccounts : Accounts t.answerTo givenUp c.streams
      (t.jobsFor c.queued ++ jobs))
    (hline : c.Line) (hlistening : c.listening = t.channel.listening)
    (hclosed : t.running = false → c.queued = [] ∧ c.hasSender = false) :
    Inv givenUp { t with channel := c, jobs := jobs } where
  accounts := by
    rw [duties_eq hrequests]
    exact haccounts
  line := hline
  unsignalled := h.unsignalled
  listening := hlistening.trans h.listening
  closed := hclosed

/-- Asking alone leaves nothing to be given. -/
theorem Inv.duties_ask (h : Inv givenUp t) (r : BlockRequest) :
    duties { t with channel := (t.channel.retrieve r).2 } = t.duties := by
  have hanswer : ∀ i ∈ t.channel.queued,
      answerToStream { t with channel := (t.channel.retrieve r).2 } i = t.answerToStream i := by
    intro i hi
    have hknown : i < t.channel.streams.length :=
      h.accounts.known ⟨i, t.answerToStream i⟩
        (List.mem_append_left _ (List.mem_map_of_mem hi))
    rw [answerToStream, answerToStream, RequestChannel.retrieve,
      List.getElem?_append_left hknown]
    rfl
  rw [duties, duties, jobsFor, jobsFor]
  congr 1
  exact List.map_congr_left fun i hi => by rw [hanswer i hi]

theorem Inv.ask (h : Inv givenUp t) (r : BlockRequest) (hloader : t.channel.hasLoader = true) :
    Inv givenUp { t with channel := (t.channel.retrieve r).2 } where
  accounts := by
    rw [h.duties_ask r]
    exact h.accounts.ask r
  line := h.line.retrieve r
  unsignalled := h.unsignalled
  listening := h.listening
  closed := by
    intro hgone
    rw [(RequestChannel.hasSender_eq_false_iff.mp (h.closed hgone).2).1] at hloader
    cases hloader

/-- A request that is sent leaves its whole answer to be given. -/
theorem Inv.send (h : Inv givenUp t) (hs : t.channel.streams[i]? = some s)
    (hline : (t.channel.send i).Line) (hlistens : t.channel.listening = true)
    (hplace : s.stage = .unsent ∧ t.channel.waiting = [] ∧ t.channel.hasRoom = true
      ∨ s.stage = .granted) :
    Inv givenUp { t with channel := t.channel.send i } := by
  have hunsent : s.stage.IsUnsent := by
    rcases hplace with ⟨hstage, -⟩ | hstage <;> rw [hstage] <;> trivial
  refine h.move (t.channel.requests_setStage _ _) ?_ hline rfl ?_
  · rw [RequestChannel.send, jobsFor, List.map_append, List.append_assoc]
    refine Accounts.perm (h.accounts.setStage hs ?_ ?_ ?_) List.perm_middle.symm
    · exact fun k hk => owed_cons_ne hk _
    · intro j hj
      rcases List.mem_cons.mp hj with rfl | hj
      · exact (List.getElem?_eq_some_iff.mp hs).1
      · exact h.accounts.known j hj
    · obtain ⟨hreceived, howed⟩ := (h.accounts.account i s hs).of_unsent hunsent
      have hself := owed_cons_self ⟨i, t.answerToStream i⟩ t.duties
      rw [hreceived, ← answerToStream_of_getElem? hs]
      show Account _ _ _ _ (owed (⟨i, t.answerToStream i⟩ :: t.duties) i)
      rw [hself, howed]
      exact .receiving rfl
  · intro hgone
    rw [h.listening.trans hgone] at hlistens
    cases hlistens

theorem Inv.read {out : Polled} {c : RequestChannel} (h : Inv givenUp t)
    (hs : t.channel.streams[i]? = some s) (hp : RequestChannel.Polls t.channel i s out c) :
    Inv givenUp { t with channel := c } := by
  have hdeaf : t.channel.listening = false → ¬ s.stage.IsUnsent := by
    intro hnot
    exact RequestChannel.not_isUnsent (h.closed (h.listening ▸ hnot)).2 hs
  have haccount := h.accounts.account i s hs
  have hline := h.line.poll hs hdeaf hp
  cases hp with
  | @block rest complete b hstage =>
      refine h.move (by simp) (h.accounts.receive hs hstage) hline rfl fun hgone => ?_
      have hnobody : (t.channel.setStage i (.receiving rest complete)).hasSender = false :=
        RequestChannel.hasSender_setStage (h.closed hgone).2 hs not_false
      exact ⟨(h.closed hgone).1, RequestChannel.hasSender_noteReceived hnobody i b⟩
  | last hstage =>
      rw [hstage] at haccount
      refine h.move (by simp) (h.accounts.setStage_alone hs haccount.close) hline rfl ?_
      exact fun hgone => ⟨(h.closed hgone).1,
        RequestChannel.hasSender_setStage (h.closed hgone).2 hs not_false⟩
  | send hlistens hplace => exact h.send hs hline hlistens hplace
  | wait hlistens hstage _ =>
      have hunsent : s.stage.IsUnsent := by rw [hstage]; trivial
      refine h.move (RequestChannel.requests_setStage _ _ _) ?_ hline rfl fun hgone => ?_
      · exact h.accounts.setStage_alone hs (haccount.restage hunsent trivial)
      · exact absurd hunsent (RequestChannel.not_isUnsent (h.closed hgone).2 hs)
  | deaf hnot hunsent => exact absurd hunsent (hdeaf hnot)

theorem Inv.giveUp (h : Inv givenUp t) (i : Nat) (hi : givenUp i) :
    Inv givenUp { t with channel := t.channel.dropStream i } := by
  have hlisted := h.line.listed.drop i
  refine h.move (t.channel.requests_dropStream i) ?_ (h.line.dropStream i)
    (RequestChannel.frame_grant _).2.1 fun hgone => ?_
  · rw [t.channel.queued_dropStream i]
    refine Accounts.grant ?_ hlisted
    cases hs : t.channel.streams[i]? with
    | none =>
        show Accounts _ _ (t.channel.setStage i .ended).streams _
        rw [RequestChannel.setStage_of_none _ hs]
        exact h.accounts
    | some s =>
        exact h.accounts.setStage_alone hs ((h.accounts.account i s hs).giveUp hi)
  · obtain ⟨hempty, hnobody⟩ := h.closed hgone
    exact ⟨(t.channel.queued_dropStream i).trans hempty,
      RequestChannel.hasSender_dropStream hnobody h.line.listed i⟩

theorem Inv.leave (h : Inv givenUp t) :
    Inv givenUp { t with channel := t.channel.dropLoader } := by
  refine h.move rfl h.accounts (h.line.congr rfl (fun _ => Iff.rfl) rfl (Nat.le_refl _)) rfl
    fun hgone => ?_
  obtain ⟨hempty, hnobody⟩ := h.closed hgone
  rw [RequestChannel.hasSender_eq_false_iff] at hnobody
  exact ⟨hempty, RequestChannel.hasSender_eq_false_iff.mpr ⟨rfl, hnobody.2⟩⟩

/-- A request that is taken becomes a job. -/
theorem Inv.begin {rest : List Nat} (h : Inv givenUp t) (hrunning : t.running = true)
    (hqueued : t.channel.queued = i :: rest) :
    Inv givenUp { t with
      channel := .grant { t.channel with queued := rest, taken := t.channel.taken ++ [i] }
      jobs := t.jobs ++ [⟨i, t.answerToStream i⟩] } := by
  refine h.move (RequestChannel.requests_grant _) ?_ (h.line.pop hqueued)
    (RequestChannel.frame_grant _).2.1 ?_
  · rw [RequestChannel.queued_grant, ← List.append_assoc]
    refine Accounts.grant ?_ ⟨h.line.listed.waiting, h.line.listed.nodup⟩
    refine Accounts.perm ?_ (List.perm_append_singleton _ _).symm
    have haccounts := h.accounts
    rw [duties, hqueued] at haccounts
    exact haccounts
  · intro hgone
    rw [hrunning] at hgone
    cases hgone

theorem close_eq (hqueued : t.channel.queued = []) : t.close = { t with
    running := false
    channel := { t.channel with listening := false, queued := [], waiting := [] } } := by
  rw [Transport.close, RequestChannel.stopListening, hqueued]
  rfl

theorem Inv.close (h : Inv givenUp t) (hqueued : t.channel.queued = [])
    (hsender : t.channel.hasSender = false) : Inv givenUp t.close := by
  have hnobody := RequestChannel.hasSender_eq_false_iff.mp hsender
  rw [close_eq hqueued]
  refine ⟨?_, ⟨⟨fun k => ?_, List.nodup_nil⟩, fun hne => absurd rfl hne⟩, h.unsignalled, rfl,
    fun _ => ⟨rfl, RequestChannel.hasSender_eq_false_iff.mpr hnobody⟩⟩
  · have haccounts := h.accounts
    rw [duties, hqueued] at haccounts
    exact haccounts
  · constructor
    · exact fun hk => absurd hk List.not_mem_nil
    · intro hstage
      obtain ⟨s, hs, hwas⟩ := RequestChannel.exists_of_stage? hstage
      exact absurd (by rw [hwas]; trivial) (RequestChannel.not_isUnsent hsender hs)

/-- The duties, with the job at a position first. -/
theorem exists_duties_perm {k : Nat} {j : Job} (hjob : t.jobs[k]? = some j) :
    ∃ others, t.duties.Perm (j :: others)
      ∧ (∀ j', (t.jobsFor t.channel.queued ++ t.jobs.set k j').Perm (j' :: others))
      ∧ (t.jobsFor t.channel.queued ++ t.jobs.eraseIdx k).Perm others := by
  obtain ⟨front, back, hjobs, -, hset, herase⟩ := exists_split_of_getElem? hjob
  have hfirst : ∀ (queued : List Job) (j' : Job),
      (queued ++ (front ++ j' :: back)).Perm (j' :: (queued ++ front ++ back)) := by
    intro queued j'
    rw [← List.append_assoc]
    exact List.perm_middle
  refine ⟨t.jobsFor t.channel.queued ++ front ++ back, ?_, fun j' => ?_, ?_⟩
  · rw [duties, hjobs]
    exact hfirst _ j
  · rw [hset]
    exact hfirst _ j'
  · rw [herase, List.append_assoc]

/-- A job puts a block into the buffer. -/
theorem Inv.respond {k : Nat} {j : Job} {b : Block} {rest buffer : List Block} {complete : Bool}
    (h : Inv givenUp t) (hjob : t.jobs[k]? = some j) (hleft : j.left = b :: rest)
    (hstage : t.channel.stage? j.stream = some (.receiving buffer complete)) :
    Inv givenUp { t with
      channel := t.channel.setStage j.stream (.receiving (buffer ++ [b]) complete)
      jobs := t.jobs.set k { j with left := rest } } := by
  obtain ⟨s, hs, hwas⟩ := RequestChannel.exists_of_stage? hstage
  obtain ⟨others, hduties, hset, -⟩ := exists_duties_perm hjob
  have haccounts := h.accounts.perm hduties
  have haccount := haccounts.account j.stream s hs
  rw [owed_cons_self, hleft, hwas] at haccount
  refine h.move (by simp) (Accounts.perm (haccounts.setStage hs ?_ ?_ ?_) (hset _).symm) ?_ rfl ?_
  · intro i hi
    have hnew := owed_cons_ne (j := { j with left := rest }) hi others
    exact hnew.trans (owed_cons_ne hi others).symm
  · intro j' hj'
    rcases List.mem_cons.mp hj' with rfl | hj'
    · exact (List.getElem?_eq_some_iff.mp hs).1
    · exact haccounts.known j' (List.mem_cons_of_mem _ hj')
  · rw [owed_cons_self]
    exact haccount.respond
  · exact h.line.setStage hs (by rw [hwas]; exact Stage.noConfusion)
      (by rw [hwas]; exact Stage.noConfusion) Stage.noConfusion
  · exact fun hgone => ⟨(h.closed hgone).1,
      RequestChannel.hasSender_setStage (h.closed hgone).2 hs not_false⟩

/-- A job that has given everything ends its stream. -/
theorem Inv.finish {k : Nat} {j : Job} {buffer : List Block} {complete : Bool}
    (h : Inv givenUp t) (hjob : t.jobs[k]? = some j) (hleft : j.left = [])
    (hstage : t.channel.stage? j.stream = some (.receiving buffer complete)) :
    Inv givenUp { t with
      channel := t.channel.setStage j.stream (.receiving buffer true)
      jobs := t.jobs.eraseIdx k } := by
  obtain ⟨s, hs, hwas⟩ := RequestChannel.exists_of_stage? hstage
  obtain ⟨others, hduties, -, herase⟩ := exists_duties_perm hjob
  have haccounts := h.accounts.perm hduties
  have haccount := haccounts.account j.stream s hs
  rw [owed_cons_self, hleft, hwas] at haccount
  refine h.move (by simp) (Accounts.perm (haccounts.setStage hs ?_ ?_ ?_) herase.symm) ?_ rfl ?_
  · exact fun i hi => (owed_cons_ne hi others).symm
  · exact fun j' hj' => haccounts.known j' (List.mem_cons_of_mem _ hj')
  · exact haccount.finish
  · exact h.line.setStage hs (by rw [hwas]; exact Stage.noConfusion)
      (by rw [hwas]; exact Stage.noConfusion) Stage.noConfusion
  · exact fun hgone => ⟨(h.closed hgone).1,
      RequestChannel.hasSender_setStage (h.closed hgone).2 hs not_false⟩

/-- A job without a stream that receives ends. -/
theorem Inv.abandon {k : Nat} {j : Job} (h : Inv givenUp t) (hjob : t.jobs[k]? = some j)
    (hclosed : ∀ buffer complete,
      t.channel.stage? j.stream ≠ some (.receiving buffer complete)) :
    Inv givenUp { t with jobs := t.jobs.eraseIdx k } := by
  obtain ⟨others, hduties, -, herase⟩ := exists_duties_perm hjob
  have haccounts := h.accounts.perm hduties
  refine h.move rfl (Accounts.perm (haccounts.change (i := j.stream) rfl ?_ ?_ ?_) herase.symm)
    h.line rfl h.closed
  · exact fun i hi => ⟨rfl, (owed_cons_ne hi others).symm⟩
  · exact fun j' hj' => haccounts.known j' (List.mem_cons_of_mem _ hj')
  · intro s hs
    have haccount := haccounts.account j.stream s hs
    rw [owed_cons_self] at haccount
    refine haccount.abandon fun buffer complete hstage => hclosed buffer complete ?_
    rw [RequestChannel.stage?_of_getElem? hs, hstage]

/-- **Every turn keeps the account of every stream.** -/
theorem Inv.step (h : Inv givenUp t) (turn : Turn) (hturn : ∀ i, turn = .giveUp i → givenUp i) :
    Inv givenUp (t.step turn) := by
  rcases step_cases h.unsignalled h.listening turn with hsteps | ⟨hsame, -⟩
  · generalize t.step turn = t' at hsteps
    cases hsteps with
    | ask r hloader => exact h.ask r hloader
    | read hs hpolls => exact h.read hs hpolls
    | giveUp i => exact h.giveUp i (hturn i rfl)
    | leave => exact h.leave
    | begin hrunning hqueued => exact h.begin hrunning hqueued
    | close _ hqueued hsender => exact h.close hqueued hsender
    | send hjob hleft hstage _ => exact h.respond hjob hleft hstage
    | finish hjob hleft hstage => exact h.finish hjob hleft hstage
    | abandon hjob hclosed => exact h.abandon hjob hclosed
  · rwa [hsame]

theorem Inv.run (h : Inv givenUp t) (turns : List Turn)
    (hturns : ∀ i, .giveUp i ∈ turns → givenUp i) : Inv givenUp (t.run turns) := by
  induction turns generalizing t with
  | nil => exact h
  | cons turn turns ih =>
      refine ih (h.step turn fun i hi => hturns i (hi ▸ List.mem_cons_self)) ?_
      exact fun i hi => hturns i (List.mem_cons_of_mem _ hi)

/-! ## What turns leave as it is -/

/-- What a turn that does something may change of the frame: a request is
added, or the last reader leaves. -/
structure Frame (t t' : Transport) (turn : Turn) : Prop where
  sources : t'.sources = t.sources
  capacity : t'.channel.capacity = t.channel.capacity
  requests : t'.channel.requests = t.channel.requests ++ turn.request?.toList
  loader : t'.channel.hasLoader = (t.channel.hasLoader && decide (turn ≠ .leave))

theorem Steps.frame (h : Steps t turn t') : Frame t t' turn := by
  have hloader : t.channel.hasLoader = (t.channel.hasLoader && true) := (Bool.and_true _).symm
  have hrequests : t.channel.requests = t.channel.requests ++ [] := (List.append_nil _).symm
  cases h with
  | ask r _ => exact ⟨rfl, rfl, List.map_append, hloader⟩
  | read _ hpolls =>
      obtain ⟨hreq, hcap, hload⟩ := hpolls.frame
      exact ⟨rfl, hcap, hreq.trans hrequests, hload.trans hloader⟩
  | giveUp i =>
      obtain ⟨hcap, -, hload⟩ := RequestChannel.frame_grant
        { t.channel.setStage i .ended with waiting := t.channel.waiting.filter (· ≠ i) }
      exact ⟨rfl, hcap, (t.channel.requests_dropStream i).trans hrequests, hload.trans hloader⟩
  | leave => exact ⟨rfl, rfl, hrequests, (Bool.and_false _).symm⟩
  | @begin i rest _ _ =>
      obtain ⟨hcap, -, hload⟩ := RequestChannel.frame_grant
        { t.channel with queued := rest, taken := t.channel.taken ++ [i] }
      exact ⟨rfl, hcap, (RequestChannel.requests_grant _).trans hrequests, hload.trans hloader⟩
  | close _ hqueued _ =>
      rw [close_eq hqueued]
      exact ⟨rfl, rfl, hrequests, hloader⟩
  | send _ _ _ _ =>
      exact ⟨rfl, rfl, (t.channel.requests_setStage _ _).trans hrequests, hloader⟩
  | finish _ _ _ =>
      exact ⟨rfl, rfl, (t.channel.requests_setStage _ _).trans hrequests, hloader⟩
  | abandon _ _ => exact ⟨rfl, rfl, hrequests, hloader⟩

/-- The requests that are asked for in some turns, until the last reader
leaves. -/
def asked (turns : List Turn) : List BlockRequest :=
  (turns.takeWhile (· ≠ .leave)).filterMap Turn.request?

theorem asked_cons (turn : Turn) (turns : List Turn) :
    asked (turn :: turns) = if turn = .leave then [] else turn.request?.toList ++ asked turns := by
  unfold asked
  rw [List.takeWhile_cons]
  by_cases hturn : turn = .leave
  · simp [hturn]
  · cases hrequest : turn.request? <;> simp [hturn, hrequest]

theorem Inv.frame_step (h : Inv givenUp t) (turn : Turn) :
    (t.step turn).answerTo = t.answerTo ∧ (t.step turn).channel.capacity = t.channel.capacity := by
  rcases step_cases h.unsignalled h.listening turn with hsteps | ⟨hsame, -⟩
  · refine ⟨?_, hsteps.frame.capacity⟩
    funext r
    rw [answerTo, answerTo, hsteps.frame.sources]
  · rw [hsame]
    exact ⟨rfl, rfl⟩

theorem Inv.frame_run (h : Inv givenUp t) (turns : List Turn)
    (hturns : ∀ i, .giveUp i ∈ turns → givenUp i) :
    (t.run turns).answerTo = t.answerTo ∧ (t.run turns).channel.capacity = t.channel.capacity := by
  induction turns generalizing t with
  | nil => exact ⟨rfl, rfl⟩
  | cons turn turns ih =>
      have hstep := h.frame_step turn
      have hrun := ih (h.step turn fun i hi => hturns i (hi ▸ List.mem_cons_self))
        fun i hi => hturns i (List.mem_cons_of_mem _ hi)
      exact ⟨hrun.1.trans hstep.1, hrun.2.trans hstep.2⟩

/-- Requests are added as long as the reader who asks for them is there. -/
theorem Inv.requests_step (h : Inv givenUp t) (turn : Turn) :
    (t.step turn).channel.requests
        = t.channel.requests ++ (if t.channel.hasLoader then turn.request?.toList else [])
      ∧ (t.step turn).channel.hasLoader = (t.channel.hasLoader && decide (turn ≠ .leave)) := by
  rcases step_cases h.unsignalled h.listening turn with hsteps | ⟨hsame, hidle⟩
  · refine ⟨hsteps.frame.requests.trans ?_, hsteps.frame.loader⟩
    generalize t.step turn = t' at hsteps
    cases hsteps with
    | ask r hloader => rw [if_pos hloader]
    | _ => rw [Turn.request?, Option.toList_none, ite_self]
  · rw [hsame]
    cases turn with
    | ask r =>
        have hloader : t.channel.hasLoader = false := hidle
        simp [hloader]
    | giveUp i => exact hidle.elim
    | leave => exact hidle.elim
    | _ => simp [Turn.request?]

/-- **The streams are those that were asked for.** -/
theorem Inv.requests_run (h : Inv givenUp t) (turns : List Turn)
    (hturns : ∀ i, .giveUp i ∈ turns → givenUp i) :
    (t.run turns).channel.requests
      = t.channel.requests ++ if t.channel.hasLoader then asked turns else [] := by
  induction turns generalizing t with
  | nil => rw [asked, List.takeWhile_nil, List.filterMap_nil, ite_self, List.append_nil]; rfl
  | cons turn turns ih =>
      have hrun := ih (h.step turn fun i hi => hturns i (hi ▸ List.mem_cons_self))
        fun i hi => hturns i (List.mem_cons_of_mem _ hi)
      obtain ⟨hrequests, hloader⟩ := h.requests_step turn
      rw [hrequests, hloader] at hrun
      rw [asked_cons]
      refine Eq.trans hrun ?_
      cases t.channel.hasLoader with
      | false => simp
      | true =>
          by_cases hturn : turn = .leave
          · simp [hturn, Turn.request?]
          · simp [hturn]

theorem Inv.start (capacity : Nat) (sources : List (PublicKey × BlockSource))
    (givenUp : Nat → Prop) : Inv givenUp (Transport.start capacity sources) where
  accounts := ⟨nofun, nofun⟩
  line := ⟨⟨fun i => by simp [Transport.start, RequestChannel.empty, RequestChannel.stage?],
    List.nodup_nil⟩, fun hne => absurd rfl hne⟩
  unsignalled := rfl
  listening := rfl
  closed := nofun

end

end Transport

end LedgerCommit
