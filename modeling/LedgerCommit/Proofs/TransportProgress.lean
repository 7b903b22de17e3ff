import LedgerCommit.Proofs.TransportRun
import Mathlib.Algebra.Ring.Nat

/-!
# Progress of the transport

Reading, serving and working lower a weight whenever they change anything, so
they come to rest after a bounded number of turns. At rest every stream is
over: nothing is left in the channel, to the jobs or in a buffer, and nobody
waits for room.
-/

namespace LedgerCommit

/-- What a change at a position does to a sum. -/
theorem sum_map_modify {α : Type} {xs : List α} {i : Nat} {x : α} (f : α → Nat) (g : α → α)
    (h : xs[i]? = some x) :
    ((xs.modify i g).map f).sum + f x = (xs.map f).sum + f (g x) := by
  obtain ⟨front, back, hxs, hmodify, -, -⟩ := exists_split_of_getElem? h
  rw [hmodify, hxs, List.map_append, List.map_append, List.map_cons, List.map_cons,
    List.sum_append, List.sum_append, List.sum_cons, List.sum_cons]
  omega

/-- The weight of a stream whose answer has `n` blocks: a bound on what is
still to be done for it, as far as it does not lie with a job. -/
def Stage.weight (n : Nat) : Stage → Nat
  | .unsent => 2 * n + 6
  | .waiting => 2 * n + 5
  | .granted => 2 * n + 4
  | .receiving buffer _ => buffer.length + 1
  | .ended => 0

namespace Transport

def streamsWeight (answer : BlockRequest → List Block) (streams : List BlockStream) : Nat :=
  (streams.map fun s => s.stage.weight (answer s.request).length).sum

/-- A block that is left to a job is still to be sent and to be read. -/
def jobsWeight (jobs : List Job) : Nat := (jobs.map fun j => 2 * j.left.length + 1).sum

def weight (t : Transport) : Nat :=
  streamsWeight t.answerTo t.channel.streams + jobsWeight t.duties + t.channel.queued.length
    + t.running.toNat

section

variable {answer : BlockRequest → List Block} {c : RequestChannel} {i : Nat} {s : BlockStream}
  {st : Stage}

theorem streamsWeight_append (xs ys : List BlockStream) :
    streamsWeight answer (xs ++ ys) = streamsWeight answer xs + streamsWeight answer ys := by
  rw [streamsWeight, List.map_append, List.sum_append]
  rfl

theorem jobsWeight_append (xs ys : List Job) :
    jobsWeight (xs ++ ys) = jobsWeight xs + jobsWeight ys := by
  rw [jobsWeight, List.map_append, List.sum_append]
  rfl

theorem jobsWeight_cons (x : Job) (xs : List Job) :
    jobsWeight (x :: xs) = 2 * x.left.length + 1 + jobsWeight xs := by
  rw [jobsWeight, List.map_cons, List.sum_cons]
  rfl

theorem streamsWeight_setStage (answer : BlockRequest → List Block) (st : Stage)
    (hs : c.streams[i]? = some s) :
    streamsWeight answer (c.setStage i st).streams + s.stage.weight (answer s.request).length
      = streamsWeight answer c.streams + st.weight (answer s.request).length :=
  sum_map_modify _ _ hs

theorem streamsWeight_noteReceived (answer : BlockRequest → List Block) (c : RequestChannel)
    (i : Nat) (b : Block) :
    streamsWeight answer (c.noteReceived i b).streams = streamsWeight answer c.streams :=
  congrArg List.sum (map_modify_of_eq
    (f := fun s : BlockStream => s.stage.weight (answer s.request).length)
    (g := fun s => { s with received := s.received ++ [b] }) (fun _ => rfl) c.streams i)

theorem streamsWeight_grant_le (answer : BlockRequest → List Block) (hlisted : c.Listed) :
    streamsWeight answer c.grant.streams ≤ streamsWeight answer c.streams := by
  rcases c.grant_cases with ⟨hsame, -⟩ | ⟨i, rest, hwaiting, -, hgrant⟩
  · exact Nat.le_of_eq (by rw [hsame])
  · have hstage : c.stage? i = some .waiting := (hlisted.waiting i).mp (by simp [hwaiting])
    obtain ⟨s, hs, hwas⟩ := RequestChannel.exists_of_stage? hstage
    have hweight := streamsWeight_setStage answer .granted hs
    rw [hwas, Stage.weight, Stage.weight] at hweight
    rw [hgrant]
    show streamsWeight answer (c.setStage i .granted).streams ≤ _
    omega

theorem streamsWeight_dropStream_le (answer : BlockRequest → List Block) (hlisted : c.Listed)
    (i : Nat) : streamsWeight answer (c.dropStream i).streams ≤ streamsWeight answer c.streams := by
  refine Nat.le_trans (streamsWeight_grant_le answer (hlisted.drop i)) ?_
  show streamsWeight answer (c.setStage i .ended).streams ≤ _
  cases hs : c.streams[i]? with
  | none => exact Nat.le_of_eq (by rw [RequestChannel.setStage_of_none _ hs])
  | some s =>
      have hweight := streamsWeight_setStage answer .ended hs
      rw [Stage.weight] at hweight
      omega

end

/-! ## Turns of the delivery -/

/-- Whether a turn is one of the delivery: to read, to serve or to work. -/
def Turn.Delivers : Turn → Prop
  | .read _ | .serve | .work _ => True
  | .ask _ | .giveUp _ | .leave => False

section

variable {t t' : Transport} {turn : Turn} {givenUp : Nat → Prop} {i : Nat} {s : BlockStream}
  {answer : BlockRequest → List Block}

theorem weight_eq {c : RequestChannel} (hrequests : c.requests = t.channel.requests)
    (jobs : List Job) : weight { t with channel := c, jobs := jobs }
      = streamsWeight t.answerTo c.streams + (jobsWeight (t.jobsFor c.queued) + jobsWeight jobs)
        + c.queued.length + t.running.toNat := by
  rw [weight, duties_eq hrequests, jobsWeight_append]
  rfl

/-- What a change of stage, together with a change of jobs, does to the weight. -/
theorem weight_restage {c : RequestChannel} (st : Stage) (jobs : List Job)
    (hs : t.channel.streams[i]? = some s) (hrequests : c.requests = t.channel.requests)
    (hqueued : c.queued = t.channel.queued)
    (hstreams : streamsWeight t.answerTo c.streams
      = streamsWeight t.answerTo (t.channel.setStage i st).streams) :
    weight { t with channel := c, jobs := jobs }
        + s.stage.weight (t.answerTo s.request).length + jobsWeight t.jobs
      = t.weight + st.weight (t.answerTo s.request).length + jobsWeight jobs := by
  have hold : t.weight = _ := weight_eq rfl t.jobs
  have hnew := weight_eq hrequests jobs
  have hstage := streamsWeight_setStage t.answerTo st hs
  rw [hstreams, hqueued] at hnew
  omega

/-- What is sent weighs less than what was to be sent. -/
theorem weight_send_lt (hs : t.channel.streams[i]? = some s)
    (hplace : s.stage = .unsent ∨ s.stage = .granted) :
    weight { t with channel := t.channel.send i } < t.weight := by
  have hold : t.weight = _ := weight_eq rfl t.jobs
  have hnew := weight_eq (t := t) (c := t.channel.send i) (t.channel.requests_setStage _ _) t.jobs
  have hstage := streamsWeight_setStage t.answerTo (.receiving [] false) hs
  have hjobs : jobsWeight (t.jobsFor (t.channel.send i).queued)
      = jobsWeight (t.jobsFor t.channel.queued) + (2 * (t.answerTo s.request).length + 1) := by
    rw [RequestChannel.send, jobsFor, List.map_append, jobsWeight_append, jobsFor, List.map_cons,
      List.map_nil, answerToStream_of_getElem? hs]
    rfl
  have hqueued : (t.channel.send i).queued.length = t.channel.queued.length + 1 :=
    List.length_append
  have hstreams : (t.channel.send i).streams
      = (t.channel.setStage i (.receiving [] false)).streams := rfl
  have hwas : 2 * (t.answerTo s.request).length + 4
      ≤ s.stage.weight (t.answerTo s.request).length := by
    rcases hplace with hwas | hwas <;> rw [hwas, Stage.weight]
    omega
  have hwill : (Stage.receiving [] false).weight (t.answerTo s.request).length = 1 := rfl
  rw [hstreams, hjobs, hqueued] at hnew
  omega

theorem weight_read_lt {out : Polled} {c : RequestChannel} (h : Inv givenUp t)
    (hs : t.channel.streams[i]? = some s) (hp : RequestChannel.Polls t.channel i s out c) :
    weight { t with channel := c } < t.weight := by
  cases hp with
  | @block rest complete b hwas =>
      have hweight := weight_restage (.receiving rest complete) t.jobs hs
        ((RequestChannel.requests_noteReceived _ i b).trans (t.channel.requests_setStage _ _)) rfl
        (streamsWeight_noteReceived t.answerTo _ i b)
      rw [hwas, Stage.weight, Stage.weight, List.length_cons] at hweight
      omega
  | last hwas =>
      have hweight := weight_restage .ended t.jobs hs (t.channel.requests_setStage _ _) rfl rfl
      rw [hwas, Stage.weight, Stage.weight] at hweight
      omega
  | send _ hplace => exact weight_send_lt hs (hplace.imp And.left id)
  | wait hlistens hwas _ =>
      have hweight := weight_restage
        (c := { t.channel.setStage i .waiting with waiting := t.channel.waiting ++ [i] })
        .waiting t.jobs hs (t.channel.requests_setStage _ _) rfl rfl
      rw [hwas, Stage.weight, Stage.weight] at hweight
      omega
  | deaf hnot hunsent =>
      exact absurd hunsent (RequestChannel.not_isUnsent (h.closed (h.listening ▸ hnot)).2 hs)

theorem exists_jobsWeight {k : Nat} {j : Job} (hjob : t.jobs[k]? = some j) :
    ∃ n, jobsWeight t.jobs = n + (2 * j.left.length + 1)
      ∧ (∀ j', jobsWeight (t.jobs.set k j') = n + (2 * j'.left.length + 1))
      ∧ jobsWeight (t.jobs.eraseIdx k) = n := by
  obtain ⟨front, back, hjobs, -, hset, herase⟩ := exists_split_of_getElem? hjob
  refine ⟨jobsWeight front + jobsWeight back, ?_, fun j' => ?_, ?_⟩
  · rw [hjobs, jobsWeight_append, jobsWeight_cons]
    omega
  · rw [hset, jobsWeight_append, jobsWeight_cons]
    omega
  · rw [herase, jobsWeight_append]

/-- What becomes a job leaves the queue. -/
theorem weight_begin_lt {c : RequestChannel} {rest : List Nat}
    (hqueued : t.channel.queued = i :: rest) (hrequests : c.requests = t.channel.requests)
    (hrest : c.queued = rest)
    (hstreams : streamsWeight t.answerTo c.streams
      ≤ streamsWeight t.answerTo t.channel.streams) :
    weight { t with channel := c, jobs := t.jobs ++ [⟨i, t.answerToStream i⟩] } < t.weight := by
  have hold : t.weight = _ := weight_eq rfl t.jobs
  have hnew := weight_eq hrequests (t.jobs ++ [⟨i, t.answerToStream i⟩])
  have hjobs : jobsWeight (t.jobsFor (i :: rest))
      = jobsWeight [⟨i, t.answerToStream i⟩] + jobsWeight (t.jobsFor rest) :=
    jobsWeight_append [_] _
  rw [hqueued, hjobs, List.length_cons] at hold
  rw [hrest, jobsWeight_append] at hnew
  omega

/-- **Whatever the delivery does, it lowers the weight.** -/
theorem Steps.weight_lt (hsteps : Steps t turn t') (h : Inv givenUp t) (hturn : turn.Delivers) :
    t'.weight < t.weight := by
  cases hsteps with
  | ask r _ => exact hturn.elim
  | read hs hpolls => exact weight_read_lt h hs hpolls
  | giveUp i => exact hturn.elim
  | leave => exact hturn.elim
  | begin _ hqueued =>
      exact weight_begin_lt hqueued (RequestChannel.requests_grant _)
        (RequestChannel.queued_grant _)
        (streamsWeight_grant_le _ ⟨h.line.listed.waiting, h.line.listed.nodup⟩)
  | close hrunning hqueued _ =>
      rw [close_eq hqueued, weight, weight, duties, duties, hqueued, hrunning]
      exact Nat.lt_succ_self _
  | @send k j b rest buffer complete hjob hleft hstage _ =>
      obtain ⟨s, hs, hwas⟩ := RequestChannel.exists_of_stage? hstage
      obtain ⟨n, hjobs, hset, -⟩ := exists_jobsWeight hjob
      have hweight := weight_restage (.receiving (buffer ++ [b]) complete)
        (t.jobs.set k { j with left := rest }) hs (t.channel.requests_setStage _ _) rfl rfl
      rw [hset, hjobs, hwas, hleft] at hweight
      simp only [Stage.weight, List.length_append, List.length_cons, List.length_nil] at hweight
      omega
  | @finish k j buffer complete hjob hleft hstage =>
      obtain ⟨s, hs, hwas⟩ := RequestChannel.exists_of_stage? hstage
      obtain ⟨n, hjobs, -, herase⟩ := exists_jobsWeight hjob
      have hweight := weight_restage (.receiving buffer true) (t.jobs.eraseIdx k) hs
        (t.channel.requests_setStage _ _) rfl rfl
      rw [herase, hjobs, hwas, hleft] at hweight
      simp only [Stage.weight, List.length_nil] at hweight
      omega
  | @abandon k j hjob _ =>
      obtain ⟨n, hjobs, -, herase⟩ := exists_jobsWeight hjob
      have hold : t.weight = _ := weight_eq rfl t.jobs
      have hnew := weight_eq (t := t) rfl (t.jobs.eraseIdx k)
      omega

/-- What requests add to the weight when they are asked for. -/
def load (answer : BlockRequest → List Block) (requests : List BlockRequest) : Nat :=
  (requests.map fun r => 2 * (answer r).length + 6).sum

theorem load_append (xs ys : List BlockRequest) :
    load answer (xs ++ ys) = load answer xs + load answer ys := by
  rw [load, List.map_append, List.sum_append]
  rfl

theorem Inv.weight_ask (h : Inv givenUp t) (r : BlockRequest) :
    weight { t with channel := (t.channel.retrieve r).2 }
      = t.weight + (2 * (t.answerTo r).length + 6) := by
  have hstreams : streamsWeight t.answerTo (t.channel.retrieve r).2.streams
      = streamsWeight t.answerTo t.channel.streams
        + streamsWeight t.answerTo [⟨r, .unsent, []⟩] := streamsWeight_append _ _
  have hunsent : streamsWeight t.answerTo [⟨r, .unsent, []⟩]
      = 2 * (t.answerTo r).length + 6 := rfl
  have hnew : weight { t with channel := (t.channel.retrieve r).2 }
      = streamsWeight t.answerTo (t.channel.retrieve r).2.streams + jobsWeight t.duties
        + t.channel.queued.length + t.running.toNat := by
    rw [weight, h.duties_ask r]
    rfl
  rw [hnew, hstreams, hunsent, weight]
  omega

/-- The other turns add no more than what was asked for. -/
theorem Inv.weight_step_le (h : Inv givenUp t) (turn : Turn) :
    (t.step turn).weight + load t.answerTo t.channel.requests
      ≤ t.weight + load t.answerTo (t.step turn).channel.requests := by
  rcases step_cases h.unsignalled h.listening turn with hsteps | ⟨hsame, -⟩
  · have hrequests := hsteps.frame.requests
    generalize t.step turn = t' at hsteps hrequests
    rw [hrequests, load_append]
    by_cases hturn : turn.Delivers
    · have hlower := hsteps.weight_lt h hturn
      omega
    · cases hsteps with
      | ask r _ =>
          have hload : load t.answerTo (Turn.ask r).request?.toList
              = 2 * (t.answerTo r).length + 6 := rfl
          have hask := h.weight_ask r
          omega
      | giveUp i =>
          have hold : t.weight = _ := weight_eq rfl t.jobs
          have hnew := weight_eq (t.channel.requests_dropStream i) t.jobs
          have hstreams := streamsWeight_dropStream_le t.answerTo h.line.listed i
          rw [t.channel.queued_dropStream i] at hnew
          omega
      | leave => exact Nat.add_le_add_left (Nat.le_add_right _ _) _
      | _ => exact absurd trivial hturn
  · exact Nat.le_of_eq (by rw [hsame])

theorem Inv.weight_run_le (h : Inv givenUp t) (turns : List Turn)
    (hturns : ∀ i, .giveUp i ∈ turns → givenUp i) :
    (t.run turns).weight + load t.answerTo t.channel.requests
      ≤ t.weight + load t.answerTo (t.run turns).channel.requests := by
  induction turns generalizing t with
  | nil => exact Nat.le_refl _
  | cons turn turns ih =>
      have hrun := ih (h.step turn fun i hi => hturns i (hi ▸ List.mem_cons_self))
        fun i hi => hturns i (List.mem_cons_of_mem _ hi)
      have hstep := h.weight_step_le turn
      rw [(h.frame_step turn).1] at hrun
      rw [run_cons]
      omega

/-! ## Coming to rest -/

/-- Whether the delivery has nothing left to do. -/
def AtRest (t : Transport) : Prop := ∀ turn : Turn, turn.Delivers → t.step turn = t

/-- Whether some turns are of the delivery, and each of them changes something. -/
def Moves (t : Transport) : List Turn → Prop
  | [] => True
  | turn :: turns => turn.Delivers ∧ t.step turn ≠ t ∧ (t.step turn).Moves turns

theorem Inv.deliver (h : Inv givenUp t) (hturn : turn.Delivers) : Inv givenUp (t.step turn) := by
  refine h.step turn fun i hi => ?_
  rw [hi] at hturn
  exact hturn.elim

theorem Inv.weight_step_lt (h : Inv givenUp t) (hturn : turn.Delivers) (hmoves : t.step turn ≠ t) :
    (t.step turn).weight < t.weight := by
  rcases step_cases h.unsignalled h.listening turn with hsteps | ⟨hsame, -⟩
  · exact hsteps.weight_lt h hturn
  · exact absurd hsame hmoves

/-- **The delivery moves only as often as the weight allows.** -/
theorem Inv.length_le_weight {turns : List Turn} (h : Inv givenUp t) (hmoves : t.Moves turns) :
    turns.length ≤ t.weight := by
  induction turns generalizing t with
  | nil => exact Nat.zero_le _
  | cons turn turns ih =>
      obtain ⟨hturn, hchange, hmore⟩ := hmoves
      have hlower := h.weight_step_lt hturn hchange
      have hlength := ih (h.deliver hturn) hmore
      rw [List.length_cons]
      omega

/-- The delivery can always be brought to rest. -/
theorem Inv.exists_atRest (h : Inv givenUp t) :
    ∃ turns, t.Moves turns ∧ (t.run turns).AtRest := by
  induction hweight : t.weight using Nat.strongRecOn generalizing t with
  | ind n ih =>
      by_cases hrest : t.AtRest
      · exact ⟨[], trivial, hrest⟩
      · simp only [AtRest, Classical.not_forall] at hrest
        obtain ⟨turn, hturn, hchange⟩ := hrest
        have hlower := h.weight_step_lt hturn hchange
        obtain ⟨turns, hmoves, hrest⟩ := ih _ (hweight ▸ hlower) (h.deliver hturn) rfl
        exact ⟨turn :: turns, ⟨hturn, hchange, hmoves⟩, hrest⟩

theorem Inv.idle_of_atRest (h : Inv givenUp t) (hrest : t.AtRest) (hturn : turn.Delivers) :
    Idle t turn := by
  rcases step_cases h.unsignalled h.listening turn with hsteps | ⟨-, hidle⟩
  · have hlower := hsteps.weight_lt h hturn
    rw [hrest turn hturn] at hlower
    exact absurd hlower (Nat.lt_irrefl _)
  · exact hidle

/-- At rest a stream is over, waits for its answer or waits for room. -/
theorem stage_of_idle (hidle : ∀ turn : Turn, turn.Delivers → Idle t turn)
    (hs : t.channel.streams[i]? = some s) :
    s.stage = .ended ∨ s.stage = .receiving [] false ∨ s.stage = .waiting := by
  have hrests := hidle (.read i) trivial s hs
  generalize (t.channel.poll i).1 = out at hrests
  cases hrests with
  | gone hended => exact .inl hended
  | pending hwaits => exact .inr (hwaits.imp id And.left)

/-- A job at rest would wait for a reader who has something to read. -/
theorem jobs_of_idle (hidle : ∀ turn : Turn, turn.Delivers → Idle t turn) : t.jobs = [] := by
  cases hjobs : t.jobs with
  | nil => rfl
  | cons j rest =>
      obtain ⟨-, buffer, complete, hstage, hfull⟩ := hidle (.work 0) trivial j (by rw [hjobs]; rfl)
      obtain ⟨s, hs, hwas⟩ := RequestChannel.exists_of_stage? hstage
      rcases stage_of_idle hidle hs with hends | hends | hends
        <;> rw [hwas] at hends <;> cases hends
      cases hfull

theorem Inv.queued_of_idle (h : Inv givenUp t)
    (hidle : ∀ turn : Turn, turn.Delivers → Idle t turn) : t.channel.queued = [] := by
  cases hrunning : t.running with
  | true => exact (hidle .serve trivial hrunning).1
  | false => exact (h.closed hrunning).1

/-- **When nothing is left to do every stream is over**, if there is any room
in the channel. -/
theorem Inv.ended_of_idle (h : Inv givenUp t) (hroom : 0 < t.channel.capacity)
    (hidle : ∀ turn : Turn, turn.Delivers → Idle t turn)
    (hs : t.channel.streams[i]? = some s) : s.stage = .ended := by
  have hqueued := h.queued_of_idle hidle
  have hduties : t.duties = [] := by
    rw [duties, hqueued, jobs_of_idle hidle]
    rfl
  rcases stage_of_idle hidle hs with hends | hends | hends
  · exact hends
  · have haccount := h.accounts.account i s hs
    rw [hends, hduties] at haccount
    generalize s.received = received at haccount
    cases haccount with
    | unsent hunsent => exact hunsent.elim
  · -- who waits stands in line for a place that somebody has
    have hline : t.channel.waiting ≠ [] := by
      have hwaits := (h.line.listed.waiting i).mpr
        ((RequestChannel.stage?_of_getElem? hs).trans (congrArg some hends))
      exact List.ne_nil_of_mem hwaits
    have hfull := h.line.full hline
    have hnone : t.channel.stages.countP (· = .granted) = 0 := by
      rw [List.countP_eq_zero, RequestChannel.stages, List.forall_mem_map]
      intro s' hs'
      obtain ⟨k, hk⟩ := List.getElem?_of_mem hs'
      rcases stage_of_idle hidle hk with hwas | hwas | hwas <;> rw [hwas] <;> decide
    rw [RequestChannel.places, hqueued, hnone] at hfull
    exact absurd hroom (Nat.not_lt.mpr hfull)

end

end Transport

end LedgerCommit
