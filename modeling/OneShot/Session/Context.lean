import OneShot.Session.Masking
import OneShot.Session.State

/-!
# Where operations run

What an operation sees of the session when its turn comes.

- **Looking up** (`Context.handle`, `Context.clock`, `Context.wait`): names stand for handles,
  clocks and waits; `$self` is the promise that a callback runs for.
- **Telling** (`Context.millis`, `Context.display`): in a session on the wall clock, no time is
  told.
- **Threads** (`isResting`, `isIdle`, `isBusy`): whether a thread has something to do.
-/

namespace OneShot.Session

/-- Where an operation runs. -/
structure Context where
  machine : Machine host
  thread : ThreadId
  /-- The promise that the operation runs for. -/
  self : Option Handle
  /-- How deeply it is nested. -/
  level : Nat

/-! ## Looking up -/

namespace Context

/-- The data of the program. -/
def state (ctx : Context) : State := ctx.machine.program

/-- The handle that a name stands for. -/
def handle (ctx : Context) (name : Field String) : Field Handle := do
  let name ← name
  if name = "$self" then
    match ctx.self with
    | some h => pure h
    | none => throw .noSelf
  else
    match ctx.state.promises.get? name with
    | some h => pure h
    | none => throw (.noPromise name)

/-- The promise of a handle. -/
def promise (ctx : Context) (h : Handle) : Field (Promise host) :=
  match ctx.machine.promise? h.id with
  | some pr => pure pr
  | none => throw (.noPromise "")

/-- The number of the clock that a name stands for. -/
def clockNumber (ctx : Context) (name : String) : Field Nat :=
  match ctx.state.clockNames.get? name with
  | some i => pure i
  | none => throw (.noClock name)

/-- The clock that a name stands for, and its number. -/
def clock (ctx : Context) (name : Field String) : Field (Nat × Clock) := do
  let name ← name
  let i ← ctx.clockNumber name
  match ctx.state.clocks[i]? with
  | some c => pure (i, c)
  | none => throw (.noClock name)

/-- The clock that a name stands for, if it is one that is moved by hand: its number and time. -/
def manualClock (ctx : Context) (name : Field String) : Field (Nat × UInt64) := do
  let (i, c) ← ctx.clock name
  match c.face with
  | .manual now => pure (i, now)
  | _ => throw (.noClock (← name))

/-- The wait that a name stands for. -/
def wait (ctx : Context) (name : Field String) : Field WaitId := do
  let name ← name
  match ctx.state.waits.get? name with
  | some w => pure w
  | none => throw (.noWait name)

/-- The interrupt token of a thread. -/
def token (ctx : Context) (t : ThreadId) : Token :=
  match ctx.machine.thread? t with
  | some th => th.token
  | none => {}

/-- Whether a panic is being cleaned up on the thread of the operation. -/
def isUnwinding (ctx : Context) : Bool :=
  (ctx.machine.thread? ctx.thread).any Thread.isUnwinding

/-- A time of a promise. -/
def millis (ctx : Context) (ms : UInt64) : Millis :=
  if ctx.state.system && ms != 0 then .masked else .exact ms

/-- A time span of a promise. -/
def span (ctx : Context) (ms : UInt64) : Millis :=
  if ctx.state.system then .masked else .exact ms

/-- A text that shows a promise. -/
def masked (ctx : Context) (s : String) : String := if ctx.state.system then mask s else s

/-- How a promise is shown. -/
def display (ctx : Context) (h : Handle) : String := ctx.masked (ctx.machine.display h.id)

/-- The structured form of a handle. -/
def layout (h : Handle) (pr : Promise host) : Text.Layout :=
  match h.kind with
  | .chain => .tuple "ChainFuture" [pr.layout]
  | _ => pr.layout

end Context

/-! ## Threads -/

/-- Whether the thread does not make a step until something happens to it: it has nothing to do,
sleeps, or awaits a promise. -/
def isResting (m : Machine host) (t : ThreadId) : Bool :=
  match m.thread? t with
  | some th =>
    th.isIdle || th.isAsleep ||
      match th.frames with
      | .task (.resting _ _) :: _ => true
      | _ => false
  | none => true

/-- Whether the thread has nothing to do. -/
def isIdle (m : Machine host) (t : ThreadId) : Bool := (m.thread? t).all Thread.isIdle

/-- Whether the thread has other work: it is the main thread, runs something, or a read started on
it has not been joined. -/
def isBusy (ctx : Context) (t : ThreadId) : Bool :=
  t == 0 || (ctx.state.started? t).isSome || !isIdle ctx.machine t

end OneShot.Session
