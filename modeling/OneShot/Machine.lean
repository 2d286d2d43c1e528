import OneShot.Frame

/-!
# Machines

Everything the library and the program around it keep: the promises, the waits, the threads, the
program's own data and the log. This module holds the state and how its parts are read and written;
`OneShot.Machine.Step` says how it moves.

- **Parts** (`promise?`, `wait?`, `thread?`, and a `modify` for each): parts are known by number and
  never removed.
- **Lifetimes** (`roots`, `alive`): a promise is alive if a handle, a wait or a call in progress
  holds it, or if the chain listener that completes it is stored in a promise that is alive.
- **Shown** (`display`): a chained promise shows its source while that is alive, and `<dropped>`
  afterwards.
-/

namespace OneShot

/-- A wait on a promise. -/
structure Wait where
  promise : PromiseId
  /-- The key under which its waker was last stored. -/
  key : Option Nat := none
  dropped : Bool := false
  deriving DecidableEq, Repr

/-- What the library writes to the log. Each record names the promise it is about and how that
was shown at the time. -/
inductive LogRecord where
  /-- The promise has completed, after this many milliseconds. -/
  | completed (p : PromiseId) (shown : String) (duration : UInt64)
  /-- A listener failed, and the failure goes no further. -/
  | absorbed (p : PromiseId) (shown : String) (e : ListenerError)
  /-- A listener failed, and the failure is handed back. -/
  | propagated (p : PromiseId) (shown : String) (e : ListenerError)
  /-- The chain callback that was to complete the promise panicked. -/
  | chainPanicked (p : PromiseId) (shown : String)
  deriving DecidableEq, Repr

/-- An entry of the log. -/
inductive Entry (H : Host) where
  | library (r : LogRecord)
  | program (e : H.Event)

/-- The state of the library and of the program around it. -/
structure Machine (H : Host) where
  promises : Array (Promise H) := #[]
  waits : Array Wait := #[]
  threads : Array (Thread H) := #[]
  /-- The program's own data. -/
  program : H.State
  log : Array (Entry H) := #[]
  /-- A panic left a cleanup: nothing runs any more. -/
  aborted : Bool := false

namespace Machine

variable {H : Host}

/-! ## Parts -/

/-- The promise with a number. -/
def promise? (m : Machine H) (p : PromiseId) : Option (Promise H) := m.promises[p]?

/-- The wait with a number. -/
def wait? (m : Machine H) (w : WaitId) : Option Wait := m.waits[w]?

/-- The thread with a number. -/
def thread? (m : Machine H) (t : ThreadId) : Option (Thread H) := m.threads[t]?

/-- Changes a promise. -/
def modifyPromise (m : Machine H) (p : PromiseId) (f : Promise H → Promise H) : Machine H :=
  { m with promises := m.promises.modify p f }

/-- Changes a wait. -/
def modifyWait (m : Machine H) (w : WaitId) (f : Wait → Wait) : Machine H :=
  { m with waits := m.waits.modify w f }

/-- Changes a thread. -/
def modifyThread (m : Machine H) (t : ThreadId) (f : Thread H → Thread H) : Machine H :=
  { m with threads := m.threads.modify t f }

/-- Adds a promise. -/
def addPromise (m : Machine H) (pr : Promise H) : Machine H × PromiseId :=
  ({ m with promises := m.promises.push pr }, m.promises.size)

/-- Adds a wait. -/
def addWait (m : Machine H) (w : Wait) : Machine H × WaitId :=
  ({ m with waits := m.waits.push w }, m.waits.size)

/-- Adds a thread that has nothing to do. -/
def addThread (m : Machine H) : Machine H × ThreadId :=
  ({ m with threads := m.threads.push {} }, m.threads.size)

/-- Wakes every thread that sleeps on the latch of `p`. -/
def rouse (m : Machine H) (p : PromiseId) : Machine H :=
  { m with threads := m.threads.map (·.rouse p) }

/-- Whether the promise is done, as its latch tells. -/
def isDone (m : Machine H) (p : PromiseId) : Bool := (m.promise? p).any Promise.isDone

/-! ## Lifetimes -/

/-- The promises that are held directly. -/
def roots (m : Machine H) : List PromiseId :=
  H.handles m.program ++
  (m.waits.toList.filter (!·.dropped)).map Wait.promise ++
  m.threads.toList.flatMap Thread.handles

/-- Whether the listeners of `s` hold `d`. -/
def stores (m : Machine H) (s d : PromiseId) : Bool :=
  match m.promise? s with
  | some pr => (targets pr.listeners.data.toList).contains d
  | none => false

/-- Whether a promise is alive, given the roots. Its holders are looked for upwards, at most `n`
promises far. -/
def aliveFrom (m : Machine H) (roots : List PromiseId) : Nat → PromiseId → Bool
  | 0, d => roots.contains d
  | n + 1, d =>
    roots.contains d ||
      match (m.promise? d).bind Promise.origin with
      | some s => m.stores s d && m.aliveFrom roots n s
      | none => false

/-- Whether a promise is alive. -/
def alive (m : Machine H) (d : PromiseId) : Bool := m.aliveFrom m.roots m.promises.size d

/-! ## Shown -/

/-- How a promise is shown, with at most `n` sources inside one another. -/
def displayFrom (m : Machine H) : Nat → PromiseId → String
  | 0, _ => "<dropped>"
  | n + 1, d =>
    match m.promise? d with
    | none => "<dropped>"
    | some pr =>
      match pr.origin with
      | some s =>
        "ChainFuture [orig=" ++ (if m.alive s then m.displayFrom n s else "<dropped>") ++
          ", doneCb=CB]"
      | none =>
        "Promise [state=" ++ pr.status.name ++ ", startTime=" ++ toString pr.startTime ++
          ", endTime=" ++ toString pr.endTime ++ "]"

/-- How a promise is shown. A source is older than what is chained from it, so the number of a
promise bounds how many sources it has. -/
def display (m : Machine H) (d : PromiseId) : String := m.displayFrom (d + 1) d

/-! ## The log -/

/-- Adds a record of the library to the log. -/
def record (m : Machine H) (r : LogRecord) : Machine H := { m with log := m.log.push (.library r) }

end Machine

end OneShot
