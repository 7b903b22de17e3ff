import LedgerCommit.Overflow

/-!
# Activities

An actor works on one thing at a time: it looks for its next input, is busy
with one, or is gone. It goes in order, with an error of its own, or because
an overflow broke it off.
-/

namespace LedgerCommit

/-- What an actor is doing. -/
inductive Activity (work error : Type) where
  | idle
  | busy (w : work)
  | ended (result : Except error Unit)
  /-- An overflow broke it off. -/
  | broken (cause : Overflow)

namespace Activity

variable {work error : Type}

def isAlive : Activity work error → Bool
  | idle | busy _ => true
  | ended _ | broken _ => false

end Activity

end LedgerCommit
