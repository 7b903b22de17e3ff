import LedgerCommit.Sync.Loader

/-!
# The request channel

Readers ask for blocks through a bounded channel of requests, and each
request is answered on a buffer of its own. A reader is a stream: it sends its
request when it is first read, and from then on reads what the answering side
puts into the buffer, until that side is done.

When the channel is full, a stream waits its turn. Room that becomes free is
set aside for the first stream that waits, and the request is sent when that
stream is read again. A stream that is given up passes its place on.
-/

namespace LedgerCommit

/-- How far a stream of blocks has come. -/
inductive Stage where
  | unsent
  /-- The request waits for room in the channel. -/
  | waiting
  /-- Room in the channel is set aside for the request. -/
  | granted
  /-- The request was sent. The buffer holds what was answered and not yet
  read; `complete` says that no more will come. -/
  | receiving (buffer : List Block) (complete : Bool)
  | ended
  deriving DecidableEq

structure BlockStream where
  request : BlockRequest
  stage : Stage
  received : List Block
  deriving DecidableEq

/-- A bounded channel of requests, with the streams that send them. Streams
and requests are named by their position in the order of their beginning. -/
structure RequestChannel where
  capacity : Nat
  streams : List BlockStream
  /-- The streams whose requests are in the channel, oldest first. -/
  queued : List Nat
  /-- The streams that wait for room, in the order of their turn. -/
  waiting : List Nat
  /-- The streams whose requests were taken from the channel, in order. -/
  taken : List Nat
  /-- Whether the answering side still listens. -/
  listening : Bool
  /-- Whether new streams can still be begun. -/
  hasLoader : Bool
  deriving DecidableEq

/-- What reading a stream once gives. -/
inductive Polled where
  | block (b : Block)
  | pending
  /-- Nothing more; the stream is over from now on. -/
  | over
  /-- The stream was over before. -/
  | gone
  deriving DecidableEq

/-- What taking a request from the channel gives. -/
inductive Taken where
  | request (stream : Nat)
  | empty
  /-- The channel is empty and nobody is left to send a request. -/
  | disconnected
  /-- The answering side has stopped listening. -/
  | deaf
  deriving DecidableEq

/-- What answering a request with a block gives. -/
inductive Answered where
  | sent
  | full
  | closed
  deriving DecidableEq

namespace RequestChannel

/-- The number of blocks that wait in the buffer of one stream at most. -/
def bufferSize : Nat := 16

def empty (capacity : Nat) : RequestChannel := ⟨capacity, [], [], [], [], true, true⟩

def stage? (c : RequestChannel) (i : Nat) : Option Stage := c.streams[i]?.map (·.stage)

def setStage (c : RequestChannel) (i : Nat) (st : Stage) : RequestChannel :=
  { c with streams := c.streams.modify i fun s => { s with stage := st } }

def noteReceived (c : RequestChannel) (i : Nat) (b : Block) : RequestChannel :=
  { c with streams := c.streams.modify i fun s => { s with received := s.received ++ [b] } }

/-- Whether a request can be put into the channel. Room that is set aside
does not count as free. -/
def hasRoom (c : RequestChannel) : Bool :=
  c.queued.length + c.streams.countP (·.stage = .granted) < c.capacity

/-- Set free room aside for the first stream that waits. -/
def grant (c : RequestChannel) : RequestChannel :=
  match c.waiting with
  | [] => c
  | i :: rest => if c.hasRoom then { c.setStage i .granted with waiting := rest } else c

/-! ## The reading side -/

/-- Begin a stream; nothing is sent yet. Gives the number of the stream. -/
def retrieve (c : RequestChannel) (r : BlockRequest) : Nat × RequestChannel :=
  (c.streams.length, { c with streams := c.streams ++ [⟨r, .unsent, []⟩] })

def send (c : RequestChannel) (i : Nat) : RequestChannel :=
  let c := c.setStage i (.receiving [] false)
  { c with queued := c.queued ++ [i] }

def poll (c : RequestChannel) (i : Nat) : Polled × RequestChannel :=
  match c.stage? i with
  | none | some .ended => (.gone, c)
  | some (.receiving (b :: rest) complete) =>
      (.block b, (c.setStage i (.receiving rest complete)).noteReceived i b)
  | some (.receiving [] true) => (.over, c.setStage i .ended)
  | some (.receiving [] false) => (.pending, c)
  | some .unsent =>
      if ¬ c.listening then (.over, c.setStage i .ended)
      else if c.waiting = [] ∧ c.hasRoom then (.pending, c.send i)
      else (.pending, { c.setStage i .waiting with waiting := c.waiting ++ [i] })
  | some .waiting => if c.listening then (.pending, c) else (.over, c.setStage i .ended)
  | some .granted => if c.listening then (.pending, c.send i) else (.over, c.setStage i .ended)

def dropStream (c : RequestChannel) (i : Nat) : RequestChannel :=
  { c.setStage i .ended with waiting := c.waiting.filter (· ≠ i) }.grant

def dropLoader (c : RequestChannel) : RequestChannel := { c with hasLoader := false }

/-! ## The answering side -/

/-- Whether a request may still be sent. -/
def hasSender (c : RequestChannel) : Bool :=
  c.hasLoader || c.streams.any fun s =>
    s.stage = .unsent || s.stage = .waiting || s.stage = .granted

def take (c : RequestChannel) : Taken × RequestChannel :=
  if ¬ c.listening then (.deaf, c)
  else
    match c.queued with
    | i :: rest => (.request i, { c with queued := rest, taken := c.taken ++ [i] }.grant)
    | [] => (if c.hasSender then .empty else .disconnected, c)

def respond (c : RequestChannel) (i : Nat) (b : Block) : Answered × RequestChannel :=
  match c.stage? i with
  | some (.receiving buffer complete) =>
      if buffer.length < bufferSize then
        (.sent, c.setStage i (.receiving (buffer ++ [b]) complete))
      else (.full, c)
  | _ => (.closed, c)

def finish (c : RequestChannel) (i : Nat) : RequestChannel :=
  match c.stage? i with
  | some (.receiving buffer _) => c.setStage i (.receiving buffer true)
  | _ => c

/-- Stop listening: the requests still in the channel are lost, and their
streams get no answer. -/
def stopListening (c : RequestChannel) : RequestChannel :=
  let c := c.queued.foldl finish c
  { c with listening := false, queued := [], waiting := [] }

end RequestChannel

end LedgerCommit
