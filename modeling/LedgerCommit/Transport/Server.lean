import LedgerCommit.Transport.Requests
import LedgerCommit.Transport.Source

/-!
# The block server

The server takes requests from the channel and answers each of them on a job
of its own, which puts the blocks of the addressed peer's chain into the
stream's buffer as room allows. Requests to unknown peers get an empty answer.
The server ends when it is told to, which it notices before it takes another
request, or when nobody is left to send requests; jobs go on to their end.

Its steps may be taken in any order. `settle` takes them until none is left,
and `fetchAll` reads streams to their ends while the server works.
-/

namespace LedgerCommit

/-- The answer to one request as far as it is not yet sent. -/
structure Job where
  stream : Nat
  left : List Block
  deriving DecidableEq

/-- A request channel together with the server that answers it. -/
structure Transport where
  channel : RequestChannel
  sources : List (PublicKey × BlockSource)
  signalled : Bool
  running : Bool
  jobs : List Job

namespace Transport

/-- A transport over sources; of two sources for one peer the later one counts. -/
def start (capacity : Nat) (sources : List (PublicKey × BlockSource)) : Transport :=
  ⟨.empty capacity, sources.reverse, false, true, []⟩

/-- The blocks that a request is answered with. -/
def answerTo (t : Transport) (r : BlockRequest) : List Block :=
  match t.sources.lookup r.peer with
  | none => []
  | some s => s.answer r.height

def answerToStream (t : Transport) (i : Nat) : List Block :=
  match t.channel.streams[i]? with
  | none => []
  | some s => t.answerTo s.request

/-! ## Steps -/

def close (t : Transport) : Transport :=
  { t with running := false, channel := t.channel.stopListening }

/-- The server notices that it has to end, or takes a request and begins a
job for it. Without either there is no step. -/
def accept (t : Transport) : Option Transport :=
  if ¬ t.running then none
  else if t.signalled then some t.close
  else
    match t.channel.take with
    | (.request i, c) =>
        some { t with channel := c, jobs := t.jobs ++ [⟨i, t.answerToStream i⟩] }
    | (.empty, _) => none
    | (.disconnected, _) => some t.close
    | (.deaf, _) => some t.close

/-- A job makes one step: it sends a block, or it ends, because nothing is
left or because its stream was given up. Without room there is no step. -/
def stepJob (c : RequestChannel) (j : Job) : Option (RequestChannel × Option Job) :=
  match j.left with
  | [] => some (c.finish j.stream, none)
  | b :: rest =>
      match c.respond j.stream b with
      | (.sent, c) => some (c, some { j with left := rest })
      | (.closed, c) => some (c.finish j.stream, none)
      | (.full, _) => none

/-- The job at a position makes one step. -/
def work (t : Transport) (i : Nat) : Option Transport := do
  let j ← t.jobs[i]?
  let (c, next) ← stepJob t.channel j
  let jobs :=
    match next with
    | some j => t.jobs.set i j
    | none => t.jobs.eraseIdx i
  return { t with channel := c, jobs }

/-! ## Letting the server work -/

def acceptAll : Nat → Transport → Transport
  | 0, t => t
  | n + 1, t =>
      match t.accept with
      | some t => acceptAll n t
      | none => t

/-- Let a job send as much as there is room for. -/
def runJob (c : RequestChannel) (stream : Nat) : List Block → RequestChannel × Option Job
  | [] => (c.finish stream, none)
  | b :: rest =>
      match c.respond stream b with
      | (.sent, c) => runJob c stream rest
      | (.closed, c) => (c.finish stream, none)
      | (.full, c) => (c, some ⟨stream, b :: rest⟩)

/-- Let each job in turn send as much as there is room for. -/
def runJobs (c : RequestChannel) : List Job → RequestChannel × List Job
  | [] => (c, [])
  | j :: js =>
      let (c, left) := runJob c j.stream j.left
      let (c, js) := runJobs c js
      (c, left.toList ++ js)

/-- Let the server and its jobs work until they can do no more. -/
def settle (t : Transport) : Transport :=
  let t := acceptAll (t.channel.queued.length + 1) t
  let (c, jobs) := runJobs t.channel t.jobs
  { t with channel := c, jobs }

/-- Tell the server to end. Gives whether it is there to hear it. -/
def signal (t : Transport) : Bool × Transport :=
  (t.running, { t with signalled := t.signalled || t.running })

/-! ## Reading streams to their ends -/

/-- A stream being read, with the number of blocks still wanted, if limited. -/
structure Reading where
  stream : Nat
  wanted : Option Nat

/-- Read what a stream has ready, at most `n` times. Gives the reading as far
as it is not over; a stream that has delivered what was wanted is given up. -/
def readReady : Nat → RequestChannel → Reading → RequestChannel × Option Reading
  | 0, c, r => (c, some r)
  | n + 1, c, r =>
      if r.wanted = some 0 then (c.dropStream r.stream, none)
      else
        match c.poll r.stream with
        | (.block _, c) => readReady n c { r with wanted := r.wanted.map (· - 1) }
        | (.pending, c) => (c, some r)
        | (.over, c) | (.gone, c) => (c, none)

/-- Read what each of the streams has ready. -/
def readAll (c : RequestChannel) : List Reading → RequestChannel × List Reading
  | [] => (c, [])
  | r :: rs =>
      let (c, left) := readReady (RequestChannel.bufferSize + 2) c r
      let (c, rs) := readAll c rs
      (c, left.toList ++ rs)

/-- Read the streams and let the server work by turns, at most `n` times. The
server works only while a stream waits for it. -/
def readRounds : Nat → Transport → List Reading → Transport
  | 0, t, _ => t
  | n + 1, t, rs =>
      match readAll t.channel rs with
      | (c, []) => { t with channel := c }
      | (c, rs) => readRounds n { t with channel := c }.settle rs

def beginAll (c : RequestChannel) : List BlockRequest → List Nat × RequestChannel
  | [] => ([], c)
  | r :: rs =>
      let (i, c) := c.retrieve r
      let (is, c) := beginAll c rs
      (i :: is, c)

def receivedBy (t : Transport) (i : Nat) : List Block :=
  match t.channel.streams[i]? with
  | none => []
  | some s => s.received

/-- Read the answers to several requests together, each to its end or to the
number of blocks wanted, while the server works. -/
def fetchAll (t : Transport) (rs : List BlockRequest) (wanted : Option Nat) :
    List (List Block) × Transport :=
  let (is, c) := beginAll t.channel rs
  let t := { t with channel := c }
  let rounds := rs.foldl (fun n r => n + (t.answerTo r).length + 4) 0
  let t := readRounds rounds t (is.map (⟨·, wanted⟩))
  (is.map t.receivedBy, t)

def fetch (t : Transport) (r : BlockRequest) (wanted : Option Nat) : List Block × Transport :=
  let (answers, t) := t.fetchAll [r] wanted
  (answers.flatten, t)

def loader : Loader Transport := ⟨fun t height peer => t.fetch ⟨peer, height⟩ none⟩

end Transport

end LedgerCommit
