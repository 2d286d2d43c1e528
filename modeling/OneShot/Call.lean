import OneShot.Promise

/-!
# Calls

What the program can ask of the library, and what it is told.

- **Calls** (`Call`): on promises, waits, interrupt tokens, clocks and policies, and two on threads
  themselves.
- **Answers** (`Answer`): one constructor for each form of result.

What a promise shows without user code, guard or wait in between (`Promise.isDone`,
`Promise.tryGet`, …) needs no call: the program looks at the promise.
-/

namespace OneShot

/-- Waits are known by number, in the order in which they were made. -/
abbrev WaitId := Nat

/-- A request to the library. -/
inductive Call (H : Host) where
  /-- Makes a promise. -/
  | build (b : Builder H)
  /-- Completes a promise, if nobody has. -/
  | complete (p : PromiseId) (o : Outcome)
  /-- Runs the cancellation hook. -/
  | cancel (p : PromiseId)
  /-- Registers a listener that may fail. -/
  | listen (p : PromiseId) (l : H.Closure .listener)
  /-- Registers a listener that cannot fail. -/
  | observe (p : PromiseId) (l : H.Closure .observer)
  /-- Derives a promise from the outcome of another. -/
  | chain (p : PromiseId) (f : H.Closure .transform)
  /-- How long the promise has been pending, or took to complete. -/
  | duration (p : PromiseId)
  /-- How many listeners are stored. -/
  | count (p : PromiseId)
  /-- Blocks until the promise is done. -/
  | get (p : PromiseId)
  /-- Blocks until the promise is done or a deadline passes; without one if `limited` is false. -/
  | getTimeout (p : PromiseId) (limited : Bool)
  /-- Makes a wait on a promise. -/
  | wait (p : PromiseId)
  /-- Polls a wait. -/
  | poll (w : WaitId) (waker : H.Closure .waker)
  /-- Drops a wait. -/
  | dropWait (w : WaitId)
  /-- Sets the interrupt flag of a thread and wakes its reads. -/
  | interrupt (t : ThreadId)
  /-- Clears the interrupt flag of a thread. -/
  | clear (t : ThreadId)
  /-- Clears the interrupt flag of a thread and tells what it was. -/
  | take (t : ThreadId)
  /-- Reads a clock. -/
  | now (c : H.Closure .clock)
  /-- Asks a policy about a failure. -/
  | classify (policy : Policy H) (e : ListenerError)
  /-- Makes a thread that has nothing to do yet. -/
  | spawn
  /-- Gives work to a thread that has nothing to do. -/
  | fork (t : ThreadId) (work : H.Closure .task)

/-- What a call gives back. -/
inductive Answer where
  | unit
  | bool (b : Bool)
  | count (n : Nat)
  | time (ms : UInt64)
  /-- A new promise that its holder can complete. -/
  | promise (p : PromiseId)
  /-- A new promise that only its source completes. -/
  | derived (d : PromiseId)
  /-- Whether a completion call won, or the failure that it handed back. -/
  | settled (r : Except ListenerError Bool)
  /-- Whether a listener was stored or run, or the failure that it handed back. -/
  | notified (r : Except ListenerError Unit)
  | read (r : Except ReadError Value)
  /-- The outcome, or none while it is pending. -/
  | polled (r : Option (Except ReadError Value))
  /-- A new wait. -/
  | wait (w : WaitId)
  | judged (d : Disposition)
  /-- A new thread. -/
  | thread (t : ThreadId)

/-- The promises that an answer holds handles of. -/
def Answer.handles : Answer → List PromiseId
  | promise p | derived p => [p]
  | _ => []

end OneShot
