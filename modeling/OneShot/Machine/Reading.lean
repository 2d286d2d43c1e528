import OneShot.Machine.Behaviour

/-!
# Blocking reads

A read waits for the latch of its promise, with an optional deadline and under the interrupt token
of its thread. It parks itself with the token before it takes the gate, so that an interrupt finds
it, and it falls asleep and gives the gate back in one step, so that whoever takes the gate next
finds it asleep.

- **Order of the checks**: the latch before the flag, and once more after the deadline. An open
  latch wins over an interrupt, and over a deadline that has passed.
- **Ways out**: each gives the gate back first and then takes the entry out of the parked list.
-/

namespace OneShot

variable {H : Host}

/-- The panic of a read that finds the latch open and no outcome. -/
def openedTooEarly : String :=
  "internal error: entered unreachable code: latch opened before the outcome was stored"

/-- A step of a blocking read of `p`. -/
def Reading.step (m : Machine H) (t : ThreadId) (p : PromiseId) (limited : Bool) (c : Control)
    (stage : Reading) : Move H :=
  let goto (m : Machine H) (s : Reading) : Move H := some (m, .goto (.reading p limited s))
  m.runStage c do
    let pr ← m.promise? p
    let th ← m.thread? t
    match stage with
    | .peek => goto m (if pr.isDone then .fetch else .attempt)
    | .attempt => goto m (if pr.isDone then .fetch else .lockParked)
    | .lockParked =>
      let parked ← th.token.parked.acquire? t
      goto (m.modifyThread t fun th => { th with token := { th.token with parked } }) .park
    | .park =>
      let parked := th.token.parked.release (Token.park th.token.parked.data p)
      goto (m.modifyThread t fun th => { th with token := { th.token with parked } })
        (.lockGate false)
    | .lockGate late =>
      let gate ← pr.latch.gate.acquire? t
      goto (m.modifyPromise p fun pr => { pr with latch := { pr.latch with gate } }) (.check late)
    | .check late =>
      goto m
        (if pr.isDone then .unlockGate .opened
        else if late then .unlockGate .expired
        else .checkFlag)
    | .checkFlag => goto m (if th.token.flag then .unlockGate .interrupted else .sleep)
    | .sleep =>
      goto
        (m.modifyPromise p fun pr =>
          { pr with latch := { pr.latch with gate := pr.latch.gate.release () } })
        .asleep
    | .asleep => none
    | .unlockGate r =>
      goto
        (m.modifyPromise p fun pr =>
          { pr with latch := { pr.latch with gate := pr.latch.gate.release () } })
        (.relockParked r)
    | .relockParked r =>
      let parked ← th.token.parked.acquire? t
      goto (m.modifyThread t fun th => { th with token := { th.token with parked } }) (.unpark r)
    | .unpark r =>
      let parked := th.token.parked.release (Token.unpark th.token.parked.data p)
      let m := m.modifyThread t fun th => { th with token := { th.token with parked } }
      match r with
      | .opened => goto m .fetch
      | .expired => some (m, .answer (.read (.error .timeout)))
      | .interrupted => some (m, .answer (.read (.error .interrupted)))
    | .fetch =>
      match pr.settled with
      | some o => some (m, .answer (.read o.read))
      | none => some (m, .throw openedTooEarly)

/-- A step of interrupting thread `u`. -/
def Interrupting.step (m : Machine H) (t : ThreadId) (u : ThreadId) (c : Control)
    (stage : Interrupting) : Move H :=
  let goto (m : Machine H) (s : Interrupting) : Move H := some (m, .goto (.interrupting u s))
  m.runStage c do
    match stage with
    | .raise =>
      goto (m.modifyThread u fun th => { th with token := { th.token with flag := true } }) .lock
    | .lock =>
      let th ← m.thread? u
      let parked ← th.token.parked.acquire? t
      goto (m.modifyThread u fun th => { th with token := { th.token with parked } }) .copy
    | .copy =>
      let th ← m.thread? u
      let parked := th.token.parked.release th.token.parked.data
      goto (m.modifyThread u fun th => { th with token := { th.token with parked } })
        (.next th.token.parked.data)
    | .next [] => some (m, .answer .unit)
    | .next (p :: rest) =>
      let pr ← m.promise? p
      let gate ← pr.latch.gate.acquire? t
      goto (m.modifyPromise p fun pr => { pr with latch := { pr.latch with gate } })
        (.notify p rest)
    | .notify p rest =>
      goto
        ((m.rouse p).modifyPromise p fun pr =>
          { pr with latch := { pr.latch with gate := pr.latch.gate.release () } })
        (.next rest)

/-- Clears the flag of thread `u`, and tells what it was if asked to. -/
def Machine.stepClearing (m : Machine H) (u : ThreadId) (tell : Bool) (c : Control) : Move H :=
  m.runStage c do
    let th ← m.thread? u
    some (m.modifyThread u fun th => { th with token := { th.token with flag := false } },
      .answer (if tell then .bool th.token.flag else .unit))

end OneShot
