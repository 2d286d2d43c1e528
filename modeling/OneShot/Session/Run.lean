import OneShot.Session.Log
import OneShot.Session.Schedule

/-!
# Running a session

The operations at the top run one after the other on the main thread.

- **One operation** (`runOp`): until the main thread has nothing to do.
- **The session** (`run`): for each operation its report, the log, and how the named promises are
  afterwards.
-/

namespace OneShot.Session

/-- What is seen of a named promise after each operation. -/
structure Glance where
  done : Bool
  cancelled : Bool
  failed : Bool
  finish : Millis
  listeners : Nat

/-- What a session tells about one operation. -/
structure StepReport where
  report : Report
  log : List (Entry host)
  promises : List (String × Glance)

/-- What is seen of the named promises. -/
def glances (m : Machine host) : List (String × Glance) :=
  m.program.promises.filterMap fun (name, h) => do
    let pr ← m.promise? h.id
    pure (name, {
      done := pr.isDone
      cancelled := pr.isCancelled
      failed := pr.isFailed
      finish := if m.program.system && pr.endTime != 0 then .masked else .exact pr.endTime
      listeners := pr.listenerCount })

/-- Runs one operation at the top. -/
def runOp (m : Machine host) (op : Op) : Machine host × StepReport :=
  let m := { m with program := { m.program with report := none }, log := #[] }
  let m := m.modifyThread 0 fun th =>
    { th with control := .go, frames := [.task (.fresh (.operation op))] }
  let m := drive maxTurns m
  let report := match m.thread? 0 with
    | some { control := .raise x, frames := [], .. } => .panicked x
    | _ => m.program.report.getD .unfinished
  (m, {
    report
    log := sortWakes (m.log.toList.map (maskEntry m.program.system))
    promises := glances m })

/-- The machine at the start of a session: a main thread and nothing else. -/
def initial (system : Bool) : Machine host where
  threads := #[{}]
  program := { system, threads := [("main", 0)], threadNames := [(0, "main")] }

/-- Runs the operations that are left. -/
def runFrom (m : Machine host) : Ops → List StepReport
  | [] => []
  | op :: rest =>
    let (m, r) := runOp m op.op
    r :: runFrom m rest

/-- Runs a session. -/
def run (system : Bool) (ops : Ops) : List StepReport := runFrom (initial system) ops

end OneShot.Session
