import OneShot.Mutex
import OneShot.Outcome

/-!
# The program around the library

The library calls back into the program that uses it: listeners, chain callbacks, cancellation
hooks, failure policies, clocks and wakers. A `Host` says what such code is made of; the library
neither knows nor restricts what it does.

- **Roles** (`Role`): what a piece of code is called for, what it is given (`Role.Arg`) and what it
  has to give back (`Role.Reply`).
- **Closures and code**: a closure is what the library stores; calling it gives code in progress,
  which runs in steps and may call the library in between.
-/

namespace OneShot

/-- What to do about a failed listener. -/
inductive Disposition where
  /-- Log it and go on with the listeners that are left. -/
  | absorb
  /-- Log it and hand it back to the call that ran the listener; the others are not run. -/
  | propagate
  deriving DecidableEq, Repr, Inhabited

/-- The name of a disposition. -/
def Disposition.name : Disposition → String
  | absorb => "Absorb"
  | propagate => "Propagate"

/-- What a piece of the program's code is called for. -/
inductive Role where
  /-- The work of a thread. -/
  | task
  /-- Reading a clock. -/
  | clock
  /-- Classifying a listener failure. -/
  | policy
  /-- A listener that may fail. -/
  | listener
  /-- A listener that cannot fail. -/
  | observer
  /-- Computing the outcome of a chained promise. -/
  | transform
  /-- A cancellation hook. -/
  | hook
  /-- Waking a task. -/
  | waker
  deriving DecidableEq, Repr

/-- What code is given when it is called. -/
abbrev Role.Arg : Role → Type
  | policy => ListenerError
  | listener | observer | transform | hook => PromiseId
  | task | clock | waker => Unit

/-- What code has to give back. -/
abbrev Role.Reply : Role → Type
  | clock => UInt64
  | policy => Disposition
  | listener => Except ListenerError Unit
  | transform => Except Value Value
  | hook => Except ListenerError Bool
  | task | observer | waker => Unit

/-- The program around the library. -/
structure Host where
  /-- Code that is stored and can be called. -/
  Closure : Role → Type
  /-- Code in progress. -/
  Code : Role → Type
  /-- Calls a closure. -/
  invoke : (r : Role) → Closure r → r.Arg → Code r
  /-- The data that all code of the program shares. -/
  State : Type
  /-- What the program writes to the log. -/
  Event : Type
  /-- The promises the program holds handles of. -/
  handles : State → List PromiseId
  /-- The clock of promises that are given none. -/
  wallClock : Closure .clock
  /-- Whether two wakers wake the same task. -/
  sameTask : Closure .waker → Closure .waker → Bool

end OneShot
