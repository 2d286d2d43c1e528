import OneShot.Machine.Behaviour

/-!
# Completing a promise

The steps of a completion call. The first one claims the status, and a call that finds it claimed
is over; the winner goes through all the others in order. The clock, the wakers and the listeners
run the program's code, which may make any calls of its own in between.

- **Claim, store, stamp**: the promise is not done yet.
- **Open, notify**: the latch opens under its gate, and the sleepers are woken.
- **Take, wake**: the wakers are taken out under their guard and called. The order in which their
  waits have registered first stands for an order that is left open (`WakerSet.takeAll`).
- **Announce, drain, deliver**: the completion is logged and the listeners are notified in order,
  up to the first failure that is handed back.
-/

namespace OneShot

variable {H : Host}

/-- The first stage of notifying a listener of `p`. -/
def Listener.begin (p : PromiseId) : Listener H → Notifying H
  | fallible l => .listening (H.invoke .listener l p)
  | observer l => .observing (H.invoke .observer l p)
  | chain f target => .transforming target (H.invoke .transform f p)

/-- The panic of a call that finds an outcome stored already. -/
def outcomeWrittenTwice : String := "outcome written twice"

/-- A step of a completion call on `p`. -/
def Completing.step (b : Behaviour H) (m : Machine H) (t : ThreadId) (p : PromiseId)
    (c : Control) : Completing H → Move H
  | .claim o => m.runStage c do
    let pr ← m.promise? p
    match pr.claim o with
    | some pr => some (m.modifyPromise p fun _ => pr, .goto (.completing p (.store o)))
    | none => some (m, .answer (.settled (.ok false)))
  | .store o => m.runStage c do
    let pr ← m.promise? p
    if pr.outcome.isSome then some (m, .throw outcomeWrittenTwice)
    else
      some (m.modifyPromise p fun pr => { pr with outcome := some o },
        .goto (.completing p (.stamp (H.invoke .clock pr.clock ()))))
  | .stamp code => m.runCode b t code c (fun k => .completing p (.stamp k)) fun m reading => do
    let pr ← m.promise? p
    some (m, .goto (.completing p (.lockGate (pr.stamp reading))))
  | .lockGate time => m.runStage c do
    let pr ← m.promise? p
    let gate ← pr.latch.gate.acquire? t
    some (m.modifyPromise p fun pr => { pr with latch := { pr.latch with gate } },
      .goto (.completing p (.openLatch time)))
  | .openLatch time => m.runStage c do
    some (m.modifyPromise p fun pr => pr.openLatch time, .goto (.completing p .notify))
  | .notify => m.runStage c do
    some
      ((m.rouse p).modifyPromise p fun pr =>
        { pr with latch := { pr.latch with gate := pr.latch.gate.release () } },
      .goto (.completing p .lockWakers))
  | .lockWakers => m.runStage c do
    let pr ← m.promise? p
    let wakers ← pr.wakers.acquire? t
    some (m.modifyPromise p fun pr => { pr with wakers }, .goto (.completing p .takeWakers))
  | .takeWakers => m.runStage c do
    let pr ← m.promise? p
    let (set, taken) := pr.wakers.data.takeAll
    some (m.modifyPromise p fun pr => { pr with wakers := pr.wakers.release set },
      .goto (.completing p (.wake taken)))
  | .wake [] => m.runStage c do
    some (m, .goto (.completing p .announce))
  | .wake (w :: rest) => m.runStage c do
    some (m, .goto (.completing p (.waking (H.invoke .waker w ()) rest)))
  | .waking code rest =>
    m.runCode b t code c (fun k => .completing p (.waking k rest)) fun m _ =>
      some (m, .goto (.completing p (.wake rest)))
  | .announce => m.runStage c do
    let pr ← m.promise? p
    some (m.record (.completed p (m.display p) (pr.endTime - pr.startTime)),
      .goto (.completing p .lockListeners))
  | .lockListeners => m.runStage c do
    let pr ← m.promise? p
    let listeners ← pr.listeners.acquire? t
    some (m.modifyPromise p fun pr => { pr with listeners }, .goto (.completing p .drain))
  | .drain => m.runStage c do
    let pr ← m.promise? p
    let (registry, ls) := pr.listeners.data.drain
    some (m.modifyPromise p fun pr => { pr with listeners := pr.listeners.release registry },
      .goto (.completing p (.deliver ls)))
  | .deliver [] => m.runStage c do
    some (m, .answer (.settled (.ok true)))
  | .deliver (l :: rest) => m.runStage c do
    some (m, .enter (.notifying p (l.begin p)) (.completing p (.delivering rest)))
  | .delivering rest =>
    match c with
    | .ret (.notified (.ok ())) => some (m, .goto (.completing p (.deliver rest)))
    | .ret (.notified (.error e)) => some (m, .answer (.settled (.error e)))
    | .raise x => some (m, .throw x)
    | _ => none

end OneShot
