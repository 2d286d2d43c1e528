import OneShot.Machine

/-!
# What code does

How the program's code runs, and how a call in progress goes on after a step.

- **A step of code** (`Behaviour.resume`): the code is told what happened (`Control`) and sees the
  whole machine; it may change the program's data, write to the log, and then acts (`Act`).
- **A step of a call** (`Next`): it moves to another stage, waits under another call, answers or
  panics.
-/

namespace OneShot

/-- What code in progress does next. -/
inductive Act (H : Host) (r : Role) where
  /-- Calls the library and goes on as `k` when that is over. -/
  | call (c : Call H) (k : H.Code r)
  /-- Goes on as `k`. -/
  | stay (k : H.Code r)
  /-- Returns. -/
  | finish (v : r.Reply)
  /-- Panics. -/
  | panic (x : String)

/-- A step of code: the program's data after it, what it wrote to the log, and what it does. -/
structure Reaction (H : Host) (r : Role) where
  state : H.State
  events : List H.Event := []
  act : Act H r

/-- How the code of a program runs. -/
structure Behaviour (H : Host) where
  resume : Machine H → ThreadId → (r : Role) → H.Code r → Control → Reaction H r

/-- How a thread goes on after a step of its top call. -/
inductive Next (H : Host) where
  /-- The call goes on. -/
  | goto (f : Frame H)
  /-- The call goes on as `f` after another call. -/
  | enter (callee f : Frame H)
  /-- The call is over. -/
  | answer (a : Answer)
  /-- The call is left by a panic. -/
  | throw (x : String)
  /-- A panic left a cleanup. -/
  | abort

/-- A step of a call: the machine after it and how its thread goes on. There is none while the call
has to wait. -/
abbrev Move (H : Host) := Option (Machine H × Next H)

namespace Machine

variable {H : Host}

/-- Runs code for one step. -/
def resume (b : Behaviour H) (m : Machine H) (t : ThreadId) {r : Role} (code : H.Code r)
    (c : Control) : Machine H × Act H r :=
  let reaction := b.resume m t r code c
  ({ m with
      program := reaction.state
      log := m.log ++ (reaction.events.map Entry.program).toArray },
    reaction.act)

/-- A step of a call that runs code: `wrap` is the stage with the code in it, and `done` what
follows when the code returns. A panic of the code leaves the call. -/
def runCode (b : Behaviour H) (m : Machine H) (t : ThreadId) {r : Role} (code : H.Code r)
    (c : Control) (wrap : H.Code r → Frame H)
    (done : Machine H → r.Reply → Move H) : Move H :=
  match m.resume b t code c with
  | (m, .call callee k) => some (m, .enter callee.frame (wrap k))
  | (m, .stay k) => some (m, .goto (wrap k))
  | (m, .finish v) => done m v
  | (m, .panic x) => some (m, .throw x)

/-- A step of a call that runs no code. A panic passes it. -/
def runStage (m : Machine H) (c : Control) (k : Move H) : Move H :=
  match c with
  | .go => k
  | .ret _ => none
  | .raise x => some (m, .throw x)

end Machine

end OneShot
