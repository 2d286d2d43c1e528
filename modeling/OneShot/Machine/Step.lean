import OneShot.Machine.Registration
import OneShot.Machine.Reading
import OneShot.Machine.Waiting

/-!
# Steps of a machine

The machine moves one thread by one step at a time, in any order.

- **A step of a call** (`Frame.step`), by its kind.
- **A step of a thread** (`Machine.step`): its top call makes a step, and the stack changes as that
  says.
- **What comes from outside** (`Machine.expire`, `Machine.disturb`): a deadline passes, or a sleeper
  wakes for no reason.
- **Runs** (`Machine.move?`, `Machine.Reaches`): any order of these.
-/

namespace OneShot

variable {H : Host}

/-- A step of measuring how long `p` has been pending, or took to complete. -/
def Machine.stepMeasuring (b : Behaviour H) (m : Machine H) (t : ThreadId) (p : PromiseId)
    (c : Control) : Option (H.Code .clock) → Move H
  | none => m.runStage c do
    let pr ← m.promise? p
    if pr.isDone then some (m, .answer (.time (pr.elapsed pr.endTime)))
    else some (m, .goto (.measuring p (some (H.invoke .clock pr.clock ()))))
  | some code => m.runCode b t code c (fun k => .measuring p (some k)) fun m reading => do
    let pr ← m.promise? p
    some (m, .answer (.time (pr.elapsed reading)))

/-- A step of counting the listeners of `p`. -/
def Machine.stepCounting (m : Machine H) (t : ThreadId) (p : PromiseId) (c : Control)
    (stage : Guarded) : Move H :=
  m.runStage c do
    let pr ← m.promise? p
    match stage with
    | .lock =>
      let listeners ← pr.listeners.acquire? t
      some (m.modifyPromise p fun pr => { pr with listeners }, .goto (.counting p .work))
    | .work =>
      let registry := pr.listeners.data
      some (m.modifyPromise p fun pr => { pr with listeners := pr.listeners.release registry },
        .answer (.count registry.length))

/-- A step of cancelling `p` by its hook. Without a hook nothing happens. -/
def Machine.stepCancelling (b : Behaviour H) (m : Machine H) (t : ThreadId) (p : PromiseId)
    (c : Control) : Option (H.Code .hook) → Move H
  | none => m.runStage c do
    let pr ← m.promise? p
    match pr.hook with
    | none => some (m, .answer (.settled (.ok false)))
    | some hook => some (m, .goto (.cancelling p (some (H.invoke .hook hook p))))
  | some code => m.runCode b t code c (fun k => .cancelling p (some k)) fun m r =>
    some (m, .answer (.settled r))

/-- A step of asking a policy. -/
def Machine.stepJudging (b : Behaviour H) (m : Machine H) (t : ThreadId) (policy : Policy H)
    (e : ListenerError) (c : Control) : Option (H.Code .policy) → Move H
  | none => m.runStage c do
    match policy with
    | .custom classify =>
      some (m, .goto (.judging policy e (some (H.invoke .policy classify e))))
    | policy => (policy.decide? e).map fun d => (m, .answer (.judged d))
  | some code => m.runCode b t code c (fun k => .judging policy e (some k)) fun m d =>
    some (m, .answer (.judged d))

/-- Gives work to thread `u`, as soon as it has nothing to do. -/
def Machine.stepForking (m : Machine H) (u : ThreadId) (work : H.Closure .task) (c : Control) :
    Move H :=
  m.runStage c do
    let th ← m.thread? u
    if th.isIdle then
      some (m.modifyThread u fun th =>
          { th with control := .go, frames := [.task (H.invoke .task work ())] },
        .answer .unit)
    else none

/-- A step of a call in progress on thread `t`. -/
def Frame.step (b : Behaviour H) (m : Machine H) (t : ThreadId) (c : Control) :
    Frame H → Move H
  | .task code => m.runCode b t code c .task fun m _ => some (m, .answer .unit)
  | .building builder clock code => builder.step b m t clock c code
  | .completing p stage => stage.step b m t p c
  | .notifying p stage => stage.step b m t p c
  | .registering p stage closing => stage.step m t p closing c
  | .chaining p f code => m.stepChaining b t p f c code
  | .measuring p code => m.stepMeasuring b t p c code
  | .counting p stage => m.stepCounting t p c stage
  | .cancelling p code => m.stepCancelling b t p c code
  | .reading p limited stage => stage.step m t p limited c
  | .waiting p => m.stepWaiting p c
  | .polling w waker stage => stage.step m t w waker c
  | .dropping w => m.stepDropping w c
  | .removing p key stage => m.stepRemoving t p key c stage
  | .interrupting u stage => stage.step m t u c
  | .clearing u tell => m.stepClearing u tell c
  | .timing code => m.runCode b t code c .timing fun m reading => some (m, .answer (.time reading))
  | .judging policy e code => m.stepJudging b t policy e c code
  | .spawning => m.runStage c do
    let (m, u) := m.addThread
    some (m, .answer (.thread u))
  | .forking u work => m.stepForking u work c

namespace Machine

/-- Lets thread `t` go on, where `rest` is what lies under its top call. -/
def proceed (m : Machine H) (t : ThreadId) (rest : List (Frame H)) : Next H → Machine H
  | .goto f => m.modifyThread t fun th => { th with control := .go, frames := f :: rest }
  | .enter callee f =>
    m.modifyThread t fun th => { th with control := .go, frames := callee :: f :: rest }
  | .answer a => m.modifyThread t fun th => { th with control := .ret a, frames := rest }
  | .throw x => m.modifyThread t fun th => { th with control := .raise x, frames := rest }
  | .abort => { m with aborted := true }

/-- A step of thread `t`. There is none if it has nothing to do, sleeps, waits for a guard, or the
machine was aborted. -/
def step (b : Behaviour H) (m : Machine H) (t : ThreadId) : Option (Machine H) :=
  if m.aborted then none
  else
    match m.thread? t with
    | some { control, frames := f :: rest, .. } =>
      (f.step b m t control).map fun (m, next) => m.proceed t rest next
    | _ => none

/-- The deadline of the read that thread `t` sleeps in passes. -/
def expire (m : Machine H) (t : ThreadId) : Option (Machine H) :=
  match m.thread? t with
  | some { frames := .reading p true .asleep :: rest, .. } =>
    some (m.modifyThread t fun th => { th with frames := .reading p true (.lockGate true) :: rest })
  | _ => none

/-- Thread `t` wakes from its sleep without having been woken. -/
def disturb (m : Machine H) (t : ThreadId) : Option (Machine H) :=
  match m.thread? t with
  | some { frames := .reading p limited .asleep :: rest, .. } =>
    some (m.modifyThread t fun th =>
      { th with frames := .reading p limited (.lockGate false) :: rest })
  | _ => none

end Machine

/-- What may happen next in a machine. -/
inductive Turn where
  /-- A thread makes a step. -/
  | step (t : ThreadId)
  /-- The deadline of a sleeping thread passes. -/
  | expire (t : ThreadId)
  /-- A sleeping thread wakes for no reason. -/
  | disturb (t : ThreadId)
  deriving DecidableEq, Repr

/-- The machine after a turn, if it can be taken. -/
def Machine.move? (b : Behaviour H) (m : Machine H) : Turn → Option (Machine H)
  | .step t => m.step b t
  | .expire t => m.expire t
  | .disturb t => m.disturb t

/-- `m'` can be reached from `m` by some schedule. -/
inductive Machine.Reaches (b : Behaviour H) (m : Machine H) : Machine H → Prop where
  | refl : Reaches b m m
  | tail {m' m'' : Machine H} (e : Turn) :
    Reaches b m m' → m'.move? b e = some m'' → Reaches b m m''

end OneShot
