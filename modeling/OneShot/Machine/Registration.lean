import OneShot.Machine.Completion
import OneShot.Machine.Notification

/-!
# Making promises and registering listeners

- **Construction** reads the clock once, then the promise exists.
- **Registration** looks at the latch, takes the guard, looks again, and then stores the listener.
  If the promise is done by then, or its listeners have been drained, the listener is notified at
  once, by the registering call and without the guard.
- **Chaining** makes a promise with the clock and the policy of its source and without a hook, then
  registers the listener that will complete it.
-/

namespace OneShot

variable {H : Host}

/-- The answer of a registration. -/
def Closing.answer (r : Except ListenerError Unit) : Closing → Answer
  | report => .notified r
  | discard => .unit
  | derived d => .derived d

/-- A step of a registration with `p`. -/
def Registering.step (m : Machine H) (t : ThreadId) (p : PromiseId) (closing : Closing)
    (c : Control) : Registering H → Move H
  | .check l => m.runStage c do
    let pr ← m.promise? p
    if pr.isDone then
      some (m, .enter (.notifying p (l.begin p)) (.registering p .inline closing))
    else
      some (m, .goto (.registering p (.lock l) closing))
  | .lock l => m.runStage c do
    let pr ← m.promise? p
    let listeners ← pr.listeners.acquire? t
    some (m.modifyPromise p fun pr => { pr with listeners },
      .goto (.registering p (.enroll l) closing))
  | .enroll l => m.runStage c do
    let pr ← m.promise? p
    let (registry, back) := pr.listeners.data.enroll l pr.isDone
    let m := m.modifyPromise p fun pr => { pr with listeners := pr.listeners.release registry }
    match back with
    | none => some (m, .answer (closing.answer (.ok ())))
    | some l => some (m, .enter (.notifying p (l.begin p)) (.registering p .inline closing))
  | .inline =>
    match c with
    | .ret (.notified r) => some (m, .answer (closing.answer r))
    | .raise x => some (m, .throw x)
    | _ => none

/-- A step of making a promise. -/
def Builder.step (b : Behaviour H) (m : Machine H) (t : ThreadId) (builder : Builder H)
    (clock : H.Closure .clock) (c : Control) (code : H.Code .clock) : Move H :=
  m.runCode b t code c (.building builder clock) fun m reading =>
    let (m, p) := m.addPromise (.make reading clock builder.policy builder.hook none)
    some (m, .answer (.promise p))

/-- A step of chaining from `p`. -/
def Machine.stepChaining (b : Behaviour H) (m : Machine H) (t : ThreadId) (p : PromiseId)
    (f : H.Closure .transform) (c : Control) : Option (H.Code .clock) → Move H
  | none => m.runStage c do
    let pr ← m.promise? p
    some (m, .goto (.chaining p f (some (H.invoke .clock pr.clock ()))))
  | some code => m.runCode b t code c (fun k => .chaining p f (some k)) fun m reading => do
    let pr ← m.promise? p
    let (m, d) := m.addPromise (.make reading pr.clock pr.policy none (some p))
    some (m, .goto (.registering p (.check (.chain f d)) (.derived d)))

end OneShot
