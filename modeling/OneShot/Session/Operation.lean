import OneShot.Session.Context

/-!
# Operations

What each operation of a session does first: it looks at names and promises, and then reports at
once, or makes a call of the library and leaves something pending. A fault ends an operation before
it does anything.

- **A step of an operation** (`OpStep`, `OpNext`).
- **Beginning** (`begin`, `perform`): by the kind of operation.
-/

namespace OneShot.Session

/-- How an operation goes on. -/
inductive OpNext where
  | done (r : Report)
  /-- Calls the library, and goes on with what is pending. -/
  | call (c : Call host) (k : Pending)
  /-- Does nothing in this step. -/
  | stay (k : Pending)
  /-- Panics. -/
  | throw (x : String)

/-- A step of an operation: the program's data after it, what it wrote to the log, and how it goes
on. -/
structure OpStep where
  state : State
  events : List Notice := []
  next : OpNext

/-! ## Beginning -/

/-- Reports at once. -/
def finish (ctx : Context) (r : Report) : OpStep := { state := ctx.state, next := .done r }

/-- Calls the library. -/
def request (ctx : Context) (c : Call host) (k : Pending := .reply) : OpStep :=
  { state := ctx.state, next := .call c k }

/-- Goes on with the thread that a name stands for. A name that stands for none gets a new thread
first. -/
def onThread (ctx : Context) (op : Op) (name : Field String) (f : ThreadId → Field OpStep) :
    Field OpStep := do
  let name ← name
  match ctx.state.threads.get? name with
  | some t => f t
  | none => pure (request ctx .spawn (.named name op))

/-- Completes the promise of a handle, unless only its source can. -/
def complete (ctx : Context) (h : Handle) (o : Outcome) : Field OpStep := do
  if h.kind = .chain then throw .unsupported
  pure (request ctx (.complete h.id o))

/-- Completes the promise of a handle with a value. A unit promise takes none. -/
def resolve (ctx : Context) (h : Handle) (v : Value) : Field OpStep := do
  if h.kind = .unit && v != .unit then throw .unsupported
  complete ctx h (.value v)

/-- The policy that is asked for. -/
def PolicySpec.policy : PolicySpec Op → Policy host
  | standard => .standard
  | absorbAll => .absorbAll
  | propagateAll => .propagateAll
  | custom rules => .custom rules

/-- The kind of handle that is asked for. -/
def PromiseSpec.kind (spec : PromiseSpec Op) : HandleKind := if spec.unit then .unit else .ordinary

/-- The builder that is asked for. Of several faults, that of the clock comes before that of the
policy, and that before the hook's. -/
def builderFor (ctx : Context) (spec : PromiseSpec Op) : Field (Builder host) := do
  let clock ← match spec.clock with
    | none => pure none
    | some name => do pure (some (ClockRef.scripted (← ctx.clockNumber (← name))))
  let policy ← spec.policy
  let cancel ← spec.cancel
  pure {
    clock
    policy := policy.policy
    hook := cancel.map fun hook => (hook, spec.kind) }

/-- Begins making a promise. A clock has to be named, but not in a session on the wall clock. -/
def beginNew (ctx : Context) (name : String) (spec : PromiseSpec Op) : Field OpStep := do
  if ctx.state.system && spec.clock.isSome then throw .clockNotAllowed
  if !ctx.state.system && spec.clock.isNone then throw .clockRequired
  let builder ← if spec.plain then pure {} else builderFor ctx spec
  pure (request ctx (.build builder) (.bindPromise name spec.kind))

/-- What a promise tells when asked. -/
def answerQuery (ctx : Context) (h : Handle) (pr : Promise host) : Query → Report
  | .isDone => .bool pr.isDone
  | .isCancelled => .bool pr.isCancelled
  | .isFailed => .bool pr.isFailed
  | .startTime => .millis (ctx.millis pr.startTime)
  | .endTime => .millis (ctx.millis pr.endTime)
  | .result => .option pr.result
  | .error => .option pr.error
  | .display => .text (ctx.display h)
  | .debug indent => .text (ctx.masked ((Context.layout h pr).render indent))

/-- What is seen of a promise before its duration is asked for. -/
def inspect (ctx : Context) (pr : Promise host) : Inspection where
  done := pr.isDone
  cancelled := pr.isCancelled
  failed := pr.isFailed
  result := pr.result
  error := pr.error
  listeners := pr.listenerCount
  start := ctx.millis pr.startTime
  finish := ctx.millis pr.endTime
  duration := .exact 0
  display := ""

/-- The longest limit, in milliseconds, with which a read is made although it will time out. -/
def patience : UInt64 := 20

/-- Begins a blocking read, unless it would block for long. -/
def beginRead (ctx : Context) (h : Handle) (limit : Limit) (c : Call host) : Field OpStep := do
  let pr ← ctx.promise h
  let long := match limit with
    | none => true
    | some ms => decide (patience < ms)
  if !pr.isDone && !(ctx.token ctx.thread).flag && long then pure (finish ctx .wouldBlock)
  else pure (request ctx c)

/-- How many registrations hold a waker. -/
def wakerRefs (m : Machine host) (id : Tag) : Nat :=
  m.promises.foldl
    (fun n pr => n + (pr.wakers.data.entries.filter (·.2 == .task id)).length) 0

/-- The structured form of a wait. -/
def waitLayout (w : Wait) (pr : Promise host) : Text.Layout :=
  .record "Wait" [
    ("promise", pr.layout),
    ("key", .option (w.key.map fun k => .atom (toString k)))]

/-- The structured form of an interrupt token. -/
def tokenLayout (token : Token) : Text.Layout :=
  .record "Interrupt" [
    ("inner", .record "InterruptInner" [
      ("flag", .bool token.flag),
      ("parked", .record "Mutex" [
        ("data", .list (token.parked.data.map fun _ => .hidden "Latch"))])])]

/-- All that is to be seen of a read failure. -/
def reportReadError (e : ReadError) : ReadErrorReport where
  display := e.message
  debug := e.layout.line
  isExecution := e.isExecution
  isCancelled := e.isCancelled
  isTimeout := e.isTimeout
  isInterrupted := e.isInterrupted
  equalsClone := e == e
  execution := e.execution?

/-- Begins a read on another thread. -/
def beginStart (ctx : Context) (t : ThreadId) (p : Field String) (read : Field ReadKind) :
    Field OpStep := do
  let h ← ctx.handle p
  let kind ← read
  if isBusy ctx t then throw .busy
  let state := { ctx.state with
    started := { thread := t, promise := h.id, kind } :: ctx.state.started }
  pure { state, next := .call (.fork t (.read h.id kind)) (.starting t) }

/-- Begins joining the read of another thread. -/
def beginJoin (ctx : Context) (name : String) : Field OpStep := do
  let some t := ctx.state.threads.get? name | throw .nothingStarted
  let some s := ctx.state.started? t | throw .nothingStarted
  if !s.settled && !ctx.machine.isDone s.promise then pure (finish ctx .wouldBlock)
  else pure { state := ctx.state, next := .stay (.joining t) }

/-- The handle of a promise for a race. -/
def racer (ctx : Context) (p : Field String) : Field Handle := do
  let h ← ctx.handle p
  if h.kind = .ordinary then pure h else throw .unsupported

/-- The most threads that race. -/
def maxRacers : Nat := 16

/-- Begins a race, with a tally of its own. -/
def beginRace (ctx : Context) (completing : Bool) (p : Field String) (n : Field Nat)
    (v : Field Value) : Field OpStep := do
  let h ← racer ctx p
  let n ← n
  if maxRacers < n then throw (.field "n")
  let tallies := ctx.state.tallies
  let race : Race := { tally := tallies.size, promise := h.id, value := ← v, completing }
  pure { state := { ctx.state with tallies := tallies.push 0 },
         next := .stay (.racing race n none) }

/-- What an operation does first. -/
def begin (ctx : Context) (op : Op) : Field OpStep :=
  let st := ctx.state
  match op with
  | .malformed f => throw f
  | .clock name face hooks => do
    let name ← name
    let face ← face
    let hooks ← hooks
    pure { state := { st with
             clockNames := st.clockNames.bind name st.clocks.size
             clocks := st.clocks.push { face, hooks } },
           next := .done .ok }
  | .set clock ms => do
    let (i, _) ← ctx.manualClock clock
    let ms ← ms
    pure { state := { st with clocks := st.clocks.modify i ({ · with face := .manual ms }) },
           next := .done .ok }
  | .advance clock ms => do
    let (i, now) ← ctx.manualClock clock
    let ms ← ms
    pure { state := { st with clocks := st.clocks.modify i ({ · with face := .manual (now + ms) }) },
           next := .done .ok }
  | .clockDebug clock => do
    let (_, now) ← ctx.manualClock clock
    let layout : Text.Layout := .record "ManualClock" [("now", .atom (toString now))]
    pure (finish ctx (.text layout.line))
  | .now clock => do
    let (i, _) ← ctx.clock clock
    pure (request ctx (.now (.scripted i)) .reading)
  | .reads clock => do
    let (_, c) ← ctx.clock clock
    pure (finish ctx (.count c.reads))
  | .wallClock => pure (finish ctx (.wallClock true "SystemClock"))
  | .new name spec => do beginNew ctx (← name) spec
  | .builderDebug spec indent => do
    let builder ← builderFor ctx spec
    pure (finish ctx (.text (builder.layout.render indent)))
  | .clone p name => do
    let h ← ctx.handle p
    let name ← name
    pure { state := { st with promises := st.promises.bind name h }, next := .done .ok }
  | .drop p => do
    let name ← p
    pure { state := { st with promises := st.promises.erase name },
           next := .done (.bool (st.promises.get? name).isSome) }
  | .samePromise p q => do
    let h ← ctx.handle p
    let g ← ctx.handle q
    if h.kind = .chain || h.kind != g.kind then throw .unsupported
    pure (finish ctx (.bool (h.id == g.id)))
  | .resolve p v => do
    let h ← ctx.handle p
    resolve ctx h (← v)
  | .resolveUnit p => do
    let h ← ctx.handle p
    if h.kind != .unit then throw .unsupported
    complete ctx h (.value .unit)
  | .reject p v => do
    let h ← ctx.handle p
    complete ctx h (.failed (← v))
  | .settle p r => do
    let h ← ctx.handle p
    match r with
    | .error e => complete ctx h (.failed (← e))
    | .ok v => do
      let v ← v
      complete ctx h (.value (if h.kind = .unit then .unit else v))
  | .markCancelled p => do complete ctx (← ctx.handle p) .cancelled
  | .cancel p => do pure (request ctx (.cancel (← ctx.handle p).id))
  | .listen p l => do
    let h ← ctx.handle p
    pure (request ctx (.listen h.id (← l, h.kind)))
  | .observe p l => do
    let h ← ctx.handle p
    pure (request ctx (.observe h.id (.scripted (← l) h.kind)) (.report .ok))
  | .chain p name cb => do
    let h ← ctx.handle p
    let name ← name
    pure (request ctx (.chain h.id (← cb, h.kind)) (.bindDerived name))
  | .query p q => do
    let h ← ctx.handle p
    pure (finish ctx (answerQuery ctx h (← ctx.promise h) q))
  | .listenerCount p => do pure (request ctx (.count (← ctx.handle p).id))
  | .duration p => do pure (request ctx (.duration (← ctx.handle p).id) .elapsed)
  | .inspect p => do
    let h ← ctx.handle p
    let pr ← ctx.promise h
    pure (request ctx (.duration h.id) (.inspected h (inspect ctx pr)))
  | .get p => do
    let h ← ctx.handle p
    beginRead ctx h none (.get h.id)
  | .getTimeout p limit => do
    let h ← ctx.handle p
    let limit ← limit
    beginRead ctx h limit (.getTimeout h.id limit.isSome)
  | .tryGet p => do
    let h ← ctx.handle p
    pure (finish ctx (.tried (← ctx.promise h).tryGet))
  | .wait p name => do
    let h ← ctx.handle p
    pure (request ctx (.wait h.id) (.bindWait (← name)))
  | .poll w waker watch => do
    let name ← w
    let id ← waker
    let w ← ctx.wait (.ok name)
    let watches := match watch with
      | some name => st.watches.bind id name
      | none => st.watches
    pure { state := { st with watches }, next := .call (.poll w (.task id)) .reply }
  | .waitDebug w => do
    let w ← ctx.wait w
    match ctx.machine.wait? w with
    | some wait =>
      let pr ← ctx.promise { id := wait.promise, kind := .ordinary }
      pure (finish ctx (.text (ctx.masked (waitLayout wait pr).line)))
    | none => pure (finish ctx .unfinished)
  | .wakerRefs waker => do pure (finish ctx (.count (wakerRefs ctx.machine (← waker))))
  | .dropWait w => do
    let name ← w
    match st.waits.get? name with
    | some w =>
      pure { state := { st with waits := st.waits.erase name },
             next := .call (.dropWait w) (.report (.bool true)) }
    | none => pure (finish ctx (.bool false))
  | .interrupt thread => onThread ctx op thread fun t =>
    pure (request ctx (.interrupt t) (.settling t))
  | .clear thread => onThread ctx op thread fun t => pure (request ctx (.clear t))
  | .take thread => onThread ctx op thread fun t => pure (request ctx (.take t))
  | .isInterrupted thread => onThread ctx op thread fun t =>
    pure (finish ctx (.bool (ctx.token t).flag))
  | .interruptDebug thread => onThread ctx op thread fun t => do
    if (st.started? t).any (!·.settled) then throw .busy
    pure (finish ctx (.text (tokenLayout (ctx.token t)).line))
  | .run thread ops => onThread ctx op thread fun t => do
    let ops ← ops
    if isBusy ctx t then throw .busy
    pure (request ctx (.fork t (.block ctx.level ctx.self ops)) (.running t))
  | .start thread p read => onThread ctx op thread fun t => beginStart ctx t p read
  | .join thread => do beginJoin ctx (← thread)
  | .raceComplete p n v => beginRace ctx true p n v
  | .raceListen p n v => beginRace ctx false p n v
  | .readError e => do pure (finish ctx (.readError (reportReadError (← e))))
  | .readErrorEq a b => do pure (finish ctx (.bool ((← a) == (← b))))
  | .listenerError e => do
    let e ← e
    pure (finish ctx (.listenerError
      { display := e.message, debug := e.layout.line, sources := e.sources }))
  | .classify policy e => do
    let policy := (← policy).policy
    pure (request ctx (.classify policy (← e)) (.judged policy.layout.line))

/-- Begins with an operation. A fault is reported. -/
def perform (ctx : Context) (op : Op) : OpStep :=
  match begin ctx op with
  | .ok s => s
  | .error f => finish ctx (.bad f)

end OneShot.Session
