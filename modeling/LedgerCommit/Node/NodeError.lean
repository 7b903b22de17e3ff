import LedgerCommit.Node.Pipeline

/-!
# Errors of a node

What a client of the gate, of the transport or of a whole node is told when
something fails.
-/

namespace LedgerCommit

/-- What a client of the gate is told. -/
inductive GateError where
  | outcome (cause : OutcomeError)
  | closed
  deriving DecidableEq

def GateError.message : GateError → String
  | outcome cause => cause.message
  | closed => "consensus gate channel closed"

/-- What a client of the transport is told. -/
inductive TransportError where
  | closed
  | unknownPeer (peer : String)
  | source (cause : StoreError)
  deriving DecidableEq

def TransportError.message : TransportError → String
  | closed => "channel closed"
  | unknownPeer peer => "peer " ++ peer ++ " not found"
  | source cause => "block source error: " ++ cause.message

/-- What a client of a node is told. -/
inductive NodeError where
  | gate (cause : GateError)
  | store (cause : StoreError)
  | config (reason : String)
  | logging (reason : String)
  | shutdown (reason : String)
  /-- An actor did not come to its end. -/
  | task (t : Task) (reason : String)
  deriving DecidableEq

def NodeError.message : NodeError → String
  | gate cause => "consensus error: " ++ cause.message
  | store cause => "store error: " ++ cause.message
  | config reason => "config error: " ++ reason
  | logging reason => "logging error: " ++ reason
  | shutdown reason => "cannot listen for shutdown signals: " ++ reason
  | task t reason => t.name ++ " task failed: " ++ reason

end LedgerCommit
