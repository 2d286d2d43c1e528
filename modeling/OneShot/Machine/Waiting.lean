import OneShot.Machine.Behaviour

/-!
# Waits

Reading a promise without blocking a thread. A wait is polled with a waker; while the promise is
pending, the last waker it was polled with is stored with the promise, to be called when the
promise completes.

- **A poll** looks at the promise, registers the waker under its guard unless the promise is done or
  its wakers have been taken, and in that case looks again.
- **Dropping a wait** takes its waker back out.
-/

namespace OneShot

variable {H : Host}

/-- The panic of a poll that can neither register nor read. -/
def closedTooEarly : String :=
  "internal error: entered unreachable code: waker set closed before the latch opened"

/-- A step of polling wait `w`. -/
def Polling.step (m : Machine H) (t : ThreadId) (w : WaitId) (waker : H.Closure .waker)
    (c : Control) (stage : Polling) : Move H :=
  let goto (m : Machine H) (s : Polling) : Move H := some (m, .goto (.polling w waker s))
  m.runStage c do
    let wait ← m.wait? w
    let p := wait.promise
    let pr ← m.promise? p
    match stage with
    | .attempt =>
      match pr.tryGet with
      | some r => some (m, .answer (.polled (some r)))
      | none => goto m .lock
    | .lock =>
      let wakers ← pr.wakers.acquire? t
      goto (m.modifyPromise p fun pr => { pr with wakers }) .register
    | .register =>
      let (set, key) := pr.wakers.data.register H.sameTask wait.key waker pr.isDone
      let m := m.modifyPromise p fun pr => { pr with wakers := pr.wakers.release set }
      let m := m.modifyWait w fun wait => { wait with key }
      match key with
      | some _ => some (m, .answer (.polled none))
      | none => goto m .reread
    | .reread =>
      match pr.tryGet with
      | some r => some (m, .answer (.polled (some r)))
      | none => some (m, .throw closedTooEarly)

/-- Makes a wait on `p`. -/
def Machine.stepWaiting (m : Machine H) (p : PromiseId) (c : Control) : Move H :=
  m.runStage c do
    let (m, w) := m.addWait { promise := p }
    some (m, .answer (.wait w))

/-- Drops wait `w`: it gives up its key. -/
def Machine.stepDropping (m : Machine H) (w : WaitId) (c : Control) : Move H :=
  m.runStage c do
    let wait ← m.wait? w
    let m := m.modifyWait w fun wait => { wait with key := none, dropped := true }
    match wait.key with
    | none => some (m, .answer .unit)
    | some key => some (m, .goto (.removing wait.promise key .lock))

/-- A step of removing the waker under `key`. -/
def Machine.stepRemoving (m : Machine H) (t : ThreadId) (p : PromiseId) (key : Nat)
    (c : Control) (stage : Guarded) : Move H :=
  m.runStage c do
    let pr ← m.promise? p
    match stage with
    | .lock =>
      let wakers ← pr.wakers.acquire? t
      some (m.modifyPromise p fun pr => { pr with wakers }, .goto (.removing p key .work))
    | .work =>
      let set := pr.wakers.data.remove key
      some (m.modifyPromise p fun pr => { pr with wakers := pr.wakers.release set }, .answer .unit)

end OneShot
