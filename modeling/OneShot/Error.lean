import OneShot.Value

/-!
# Failures

The two kinds of failure that leave the library.

- **A read fails** (`ReadError`): the promise was completed with an error or cancelled, or the
  reader gave up waiting because of its deadline or an interrupt.
- **A listener fails** (`ListenerError`): what it reports to is gone, or it failed for a cause of
  its own. A cause may itself be a failure of either kind.

Each has a message (`message`), a structured form (`layout`) and, for listeners, the messages of
its causes from the outermost in (`ListenerError.sources`).
-/

namespace OneShot

/-- Why a read gave no value. -/
inductive ReadError where
  /-- The promise was completed with this error. -/
  | execution (error : Value)
  /-- The promise was cancelled. -/
  | cancelled
  /-- The deadline of the read passed first. The promise is as it was. -/
  | timeout
  /-- The reading thread was interrupted. Its flag stays set. -/
  | interrupted
  deriving DecidableEq, Repr, Inhabited

namespace ReadError

/-- The message for a person. -/
def message : ReadError → String
  | execution _ => "promise completed with an error"
  | cancelled => "promise was cancelled"
  | timeout => "timeout was reached before computation completed"
  | interrupted => "got interrupted while waiting for promise to complete"

/-- How a read failure is shown inside structured text. -/
def layout : ReadError → Text.Layout
  | execution e => .tuple "Execution" [e.layout]
  | cancelled => .atom "Cancelled"
  | timeout => .atom "Timeout"
  | interrupted => .atom "Interrupted"

def isExecution : ReadError → Bool
  | execution _ => true
  | _ => false

def isCancelled : ReadError → Bool
  | cancelled => true
  | _ => false

def isTimeout : ReadError → Bool
  | timeout => true
  | _ => false

def isInterrupted : ReadError → Bool
  | interrupted => true
  | _ => false

/-- The error the promise was completed with, if that is why the read failed. -/
def execution? : ReadError → Option Value
  | execution e => some e
  | _ => none

end ReadError

/-- Why a listener failed. -/
inductive ListenerError where
  /-- What the listener reports to has shut down. -/
  | unavailable (reason : String)
  /-- A failure described by a text. -/
  | failed (cause : String)
  /-- A failure caused by a failed read. -/
  | failedRead (cause : ReadError)
  /-- A failure caused by the failure of another listener. -/
  | failedListener (cause : ListenerError)
  deriving DecidableEq, Repr, Inhabited

namespace ListenerError

/-- Whether the target of the listener was gone. -/
def isUnavailable : ListenerError → Bool
  | unavailable _ => true
  | _ => false

/-- The name of the kind of failure. -/
def kind (e : ListenerError) : String := if e.isUnavailable then "Unavailable" else "Failed"

/-- The message for a person. -/
def message : ListenerError → String
  | unavailable reason => "listener target is unavailable: " ++ reason
  | failed cause => "listener failed: " ++ cause
  | failedRead cause => "listener failed: " ++ cause.message
  | failedListener cause => "listener failed: " ++ cause.message

/-- How a listener failure is shown inside structured text. -/
def layout : ListenerError → Text.Layout
  | unavailable reason => .tuple "Unavailable" [.atom (Text.Quoted.quote reason)]
  | failed cause => .tuple "Failed" [.atom (Text.Quoted.quote cause)]
  | failedRead cause => .tuple "Failed" [cause.layout]
  | failedListener cause => .tuple "Failed" [cause.layout]

/-- The messages of the causes, the outermost first. -/
def sources : ListenerError → List String
  | unavailable _ => []
  | failed cause => [cause]
  | failedRead cause => [cause.message]
  | failedListener cause => cause.message :: cause.sources

end ListenerError

end OneShot
