import OneShot.Call

/-!
# Reports

What a session tells about each operation.

- **Faults** (`Fault`): why an operation was not carried out.
- **Reports** (`Report`): the result of an operation, one constructor for each form.
- **Events** (`Notice`): what happened while an operation ran, besides the log of the library.
-/

namespace OneShot.Session

/-- An identifier of any form, written as compact text. -/
abbrev Tag := String

/-- Why an operation was not carried out. -/
inductive Fault where
  /-- A field is missing or of the wrong form. -/
  | field (name : String)
  /-- A field holds no value that a promise can have. -/
  | value
  | noPromise (name : String)
  | noClock (name : String)
  | noWait (name : String)
  /-- There is no promise that the operation runs for. -/
  | noSelf
  | unknownOperation (name : String)
  | unknownKind (name : String)
  /-- The handle does not have the operation. -/
  | unsupported
  /-- The thread has other work. -/
  | busy
  | nothingStarted
  | clockRequired
  | clockNotAllowed
  | listenerError
  deriving DecidableEq, Repr, Inhabited

/-- The message for a fault. -/
def Fault.message : Fault → String
  | field name => "field " ++ name
  | value => "value"
  | noPromise name => "no promise " ++ name
  | noClock name => "no clock " ++ name
  | noWait name => "no wait " ++ name
  | noSelf => "no $self"
  | unknownOperation name => "op " ++ name
  | unknownKind name => "kind " ++ name
  | unsupported => "unsupported"
  | busy => "busy"
  | nothingStarted => "nothing started"
  | clockRequired => "clock required"
  | clockNotAllowed => "clock not allowed"
  | listenerError => "listener error"

/-- A time as a session shows it. -/
inductive Millis where
  | exact (ms : UInt64)
  /-- A time of the wall clock, which is not told. -/
  | masked
  deriving DecidableEq, Repr, Inhabited

/-- All that can be seen of a promise at once. -/
structure Inspection where
  done : Bool
  cancelled : Bool
  failed : Bool
  result : Option Value
  error : Option Value
  listeners : Nat
  start : Millis
  finish : Millis
  duration : Millis
  display : String

/-- All that can be seen of a read failure. -/
structure ReadErrorReport where
  display : String
  debug : String
  isExecution : Bool
  isCancelled : Bool
  isTimeout : Bool
  isInterrupted : Bool
  equalsClone : Bool
  execution : Option Value

/-- All that can be seen of a listener failure. -/
structure ListenerErrorReport where
  display : String
  debug : String
  sources : List String

/-- The result of an operation. -/
inductive Report where
  | ok
  /-- A read was started on a thread. -/
  | started
  /-- A read would have blocked and was not made. -/
  | wouldBlock
  /-- A wait is still pending. -/
  | pending
  | bool (b : Bool)
  | count (n : Nat)
  | reading (ms : UInt64)
  | millis (ms : Millis)
  | text (s : String)
  | option (v : Option Value)
  | settled (r : Except ListenerError Bool)
  | notified (r : Except ListenerError Unit)
  | read (r : Except ReadError Value)
  | tried (r : Option (Except ReadError Value))
  | inspection (i : Inspection)
  /-- Whether the wall clock reads a time after its epoch, and how it is shown. -/
  | wallClock (positive : Bool) (debug : String)
  | readError (r : ReadErrorReport)
  | listenerError (r : ListenerErrorReport)
  /-- The disposition of a failure, and how the policy is shown. -/
  | judged (d : Disposition) (policy : String)
  /-- The completing call, how many listeners ran, and how many are left. -/
  | race (r : Except ListenerError Bool) (ran left : Nat)
  | bad (f : Fault)
  | panicked (x : String)
  /-- The operation did not come to an end. -/
  | unfinished

/-- The listener failure that an operation ran into. -/
def Report.failure? : Report → Option ListenerError
  | settled (.error e) | notified (.error e) | race (.error e) _ _ => some e
  | _ => none

/-- What a session writes to the log. -/
inductive Notice where
  /-- A listener starts. -/
  | listener (id : Tag) (thread : String)
  /-- A chain callback starts. -/
  | chainCallback (id : Tag) (thread : String)
  /-- A cancellation hook starts. -/
  | cancelHook (id : Tag) (thread : String)
  /-- A nested operation finished. -/
  | operation (name : Tag) (r : Report)
  /-- A policy of the program is asked. -/
  | classify (e : ListenerError)
  /-- The read of a clock with that number starts, and something is to be done then. -/
  | clockRead (n : Nat)
  /-- A waker is called; the promise it watches is done or not and has so many listeners. -/
  | wake (id : Tag) (saw : Option (Bool × Nat))
  /-- A panic that was to be raised while another is being cleaned up. -/
  | panicSuppressed (x : String)
  /-- Operations nested too deeply, which were not run. -/
  | tooDeep

end OneShot.Session
