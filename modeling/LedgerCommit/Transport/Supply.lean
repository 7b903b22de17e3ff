import LedgerCommit.Transport.Server

/-!
# Supplies of blocks

A node gets blocks from peers over a transport. For rehearsals a script takes
the place of the transport, and keeps a record of what was asked.
-/

namespace LedgerCommit

/-- Where a node gets blocks from. -/
inductive Supply where
  | scripted (s : Script)
  | served (t : Transport)

namespace Supply

def loader : Loader Supply where
  retrieve
    | scripted s, height, peer => (Script.loader.retrieve s height peer).map id scripted
    | served t, height, peer => (Transport.loader.retrieve t height peer).map id served

/-- Let the other side of the supply work until it can do no more. -/
def settle : Supply → Supply
  | scripted s => scripted s
  | served t => served t.settle

/-- What a script was asked so far; a transport keeps no record. -/
def requests : Supply → List BlockRequest
  | scripted s => s.requests
  | served _ => []

/-- Tell the server of the supply to end. Gives whether one is there to hear it. -/
def signal : Supply → Bool × Supply
  | scripted s => (false, scripted s)
  | served t => t.signal.map id served

end Supply

end LedgerCommit
