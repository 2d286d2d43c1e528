import OneShot.Call

/-!
# Calls in progress

A thread is a stack of calls in progress. Each kind of call has its stages, and a step of a thread
does what the stage of the top call says: one indivisible piece of work, or one step of the
program's code that the call is running.

- **Stages** (`Completing`, `Notifying`, `Registering`, `Reading`, …): named for what the call is
  about to do. A stage that holds `H.Code` is running that code.
- **Calls in progress** (`Frame`), and the promises that each keeps alive (`Frame.handles`).
- **Threads** (`Thread`): the stack, what the top call has to deal with next (`Control`), and the
  interrupt token.
-/

namespace OneShot

/-! ## Stages -/

/-- Stages of a completion call. All but the first are reached by the winner alone. -/
inductive Completing (H : Host) where
  /-- Claims the status, or finds it claimed. -/
  | claim (o : Outcome)
  /-- Stores the outcome and calls the clock. -/
  | store (o : Outcome)
  /-- Runs the clock. -/
  | stamp (code : H.Code .clock)
  /-- Takes the gate of the latch. -/
  | lockGate (time : UInt64)
  /-- Opens the latch. -/
  | openLatch (time : UInt64)
  /-- Wakes the sleepers and gives the gate back. -/
  | notify
  /-- Takes the guard of the waker set. -/
  | lockWakers
  /-- Takes the waker set and gives its guard back. -/
  | takeWakers
  /-- Calls the next waker. -/
  | wake (rest : List (H.Closure .waker))
  /-- Runs a waker. -/
  | waking (code : H.Code .waker) (rest : List (H.Closure .waker))
  /-- Logs the completion. -/
  | announce
  /-- Takes the guard of the listeners. -/
  | lockListeners
  /-- Drains the listeners and gives their guard back. -/
  | drain
  /-- Notifies the next listener. -/
  | deliver (rest : List (Listener H))
  /-- Waits while a listener is notified. -/
  | delivering (rest : List (Listener H))

/-- Stages of notifying one listener. -/
inductive Notifying (H : Host) where
  /-- Runs a listener that may fail. -/
  | listening (code : H.Code .listener)
  /-- Runs a listener that cannot fail. -/
  | observing (code : H.Code .observer)
  /-- Runs a chain callback, whose result is for `target`. -/
  | transforming (target : PromiseId) (code : H.Code .transform)
  /-- Waits while `target` is completed with the result. -/
  | relaying (target : PromiseId)
  /-- Waits while `target` is cancelled, because the chain callback panicked. -/
  | cleaning (target : PromiseId) (panic : String)
  /-- Asks the policy about the failure of the listener. -/
  | settle (e : ListenerError)
  /-- Runs the policy. -/
  | settling (e : ListenerError) (code : H.Code .policy)

/-- Stages of a registration. -/
inductive Registering (H : Host) where
  /-- Looks at the latch before taking the guard. -/
  | check (l : Listener H)
  /-- Takes the guard of the listeners. -/
  | lock (l : Listener H)
  /-- Looks at the latch again, stores the listener or not, and gives the guard back. -/
  | enroll (l : Listener H)
  /-- Waits while the listener is notified at once. -/
  | inline

/-- What a registration answers. -/
inductive Closing where
  /-- How the registration went. -/
  | report
  /-- Nothing. -/
  | discard
  /-- The promise that the registered chain listener completes. -/
  | derived (d : PromiseId)
  deriving DecidableEq

/-- How a read ended its wait. -/
inductive Acquired where
  | opened
  | expired
  | interrupted
  deriving DecidableEq, Repr

/-- Stages of a blocking read. `late` says that the deadline has passed. -/
inductive Reading where
  /-- A read with a deadline looks at the latch before anything else. -/
  | peek
  /-- Looks at the latch without the gate. -/
  | attempt
  /-- Takes the guard of the parked list. -/
  | lockParked
  /-- Adds an entry to the parked list and gives its guard back. -/
  | park
  /-- Takes the gate of the latch. -/
  | lockGate (late : Bool)
  /-- Looks at the latch. -/
  | check (late : Bool)
  /-- Looks at the interrupt flag. -/
  | checkFlag
  /-- Falls asleep and gives the gate back, in one. -/
  | sleep
  /-- Sleeps until it is woken. -/
  | asleep
  /-- Gives the gate back. -/
  | unlockGate (r : Acquired)
  /-- Takes the guard of the parked list again. -/
  | relockParked (r : Acquired)
  /-- Removes the entry from the parked list and gives its guard back. -/
  | unpark (r : Acquired)
  /-- Reads the outcome. -/
  | fetch
  deriving DecidableEq, Repr

/-- Stages of polling a wait. -/
inductive Polling where
  /-- Looks at the promise. -/
  | attempt
  /-- Takes the guard of the waker set. -/
  | lock
  /-- Registers the waker unless the promise is done, and gives the guard back. -/
  | register
  /-- Looks at the promise again. -/
  | reread
  deriving DecidableEq, Repr

/-- Stages of a call that does one thing under a guard. -/
inductive Guarded where
  /-- Takes the guard. -/
  | lock
  /-- Does the work and gives the guard back. -/
  | work
  deriving DecidableEq, Repr

/-- Stages of interrupting a thread. -/
inductive Interrupting where
  /-- Sets the flag. -/
  | raise
  /-- Takes the guard of the parked list. -/
  | lock
  /-- Copies the parked list and gives its guard back. -/
  | copy
  /-- Takes the gate of the next latch. -/
  | next (latches : List PromiseId)
  /-- Wakes the sleepers of a latch and gives its gate back. -/
  | notify (latch : PromiseId) (rest : List PromiseId)
  deriving DecidableEq, Repr

/-! ## Calls in progress -/

/-- A call in progress. -/
inductive Frame (H : Host) where
  /-- The work of the thread. -/
  | task (code : H.Code .task)
  /-- Makes a promise; runs its clock. -/
  | building (b : Builder H) (clock : H.Closure .clock) (code : H.Code .clock)
  | completing (p : PromiseId) (stage : Completing H)
  | notifying (p : PromiseId) (stage : Notifying H)
  | registering (p : PromiseId) (stage : Registering H) (closing : Closing)
  /-- Derives a promise; calls and then runs the clock. -/
  | chaining (p : PromiseId) (f : H.Closure .transform) (code : Option (H.Code .clock))
  /-- Measures a duration; looks at the end time and then runs the clock. -/
  | measuring (p : PromiseId) (code : Option (H.Code .clock))
  | counting (p : PromiseId) (stage : Guarded)
  /-- Cancels by the hook; calls and then runs it. -/
  | cancelling (p : PromiseId) (code : Option (H.Code .hook))
  /-- Reads an outcome, with a deadline if `limited`. -/
  | reading (p : PromiseId) (limited : Bool) (stage : Reading)
  /-- Makes a wait. -/
  | waiting (p : PromiseId)
  | polling (w : WaitId) (waker : H.Closure .waker) (stage : Polling)
  /-- Drops a wait: takes its key. -/
  | dropping (w : WaitId)
  /-- Removes the entry of a dropped wait. -/
  | removing (p : PromiseId) (key : Nat) (stage : Guarded)
  | interrupting (t : ThreadId) (stage : Interrupting)
  /-- Clears a flag; tells what it was if `tell`. -/
  | clearing (t : ThreadId) (tell : Bool)
  /-- Reads a clock for the program. -/
  | timing (code : H.Code .clock)
  /-- Asks a policy for the program; calls and then runs it. -/
  | judging (policy : Policy H) (e : ListenerError) (code : Option (H.Code .policy))
  | spawning
  | forking (t : ThreadId) (work : H.Closure .task)

/-- The chain listeners' targets among listeners. -/
def targets {H : Host} (ls : List (Listener H)) : List PromiseId := ls.filterMap Listener.target?

/-- The promises that a completion keeps alive besides its own. -/
def Completing.handles {H : Host} : Completing H → List PromiseId
  | deliver rest | delivering rest => targets rest
  | _ => []

/-- The promises that a notification keeps alive besides the one it is for. -/
def Notifying.handles {H : Host} : Notifying H → List PromiseId
  | transforming target _ | relaying target | cleaning target _ => [target]
  | _ => []

/-- The promises that a registration keeps alive besides its own. -/
def Registering.handles {H : Host} : Registering H → List PromiseId
  | check l | lock l | enroll l => l.target?.toList
  | inline => []

/-- The promise that a registration is going to answer. -/
def Closing.handles : Closing → List PromiseId
  | derived d => [d]
  | _ => []

/-- The promises that a call in progress keeps alive. -/
def Frame.handles {H : Host} : Frame H → List PromiseId
  | completing p stage => p :: stage.handles
  | notifying p stage => p :: stage.handles
  | registering p stage closing => p :: (stage.handles ++ closing.handles)
  | chaining p _ _ | measuring p _ | counting p _ | cancelling p _ | reading p _ _ | waiting p
  | removing p _ _ => [p]
  | _ => []

/-- Whether the call is cleaning up after a panic. -/
def Frame.isCleanup {H : Host} : Frame H → Bool
  | notifying _ (.cleaning _ _) => true
  | _ => false

/-- The program's code that a call is running, if any. -/
def Frame.code? {H : Host} : Frame H → Option ((r : Role) × H.Code r)
  | task code => some ⟨.task, code⟩
  | building _ _ code | completing _ (.stamp code) | chaining _ _ (some code)
  | measuring _ (some code) | timing code => some ⟨.clock, code⟩
  | completing _ (.waking code _) => some ⟨.waker, code⟩
  | notifying _ (.listening code) => some ⟨.listener, code⟩
  | notifying _ (.observing code) => some ⟨.observer, code⟩
  | notifying _ (.transforming _ code) => some ⟨.transform, code⟩
  | notifying _ (.settling _ code) | judging _ _ (some code) => some ⟨.policy, code⟩
  | cancelling _ (some code) => some ⟨.hook, code⟩
  | _ => none

/-- The first stage of a call. -/
def Call.frame {H : Host} : Call H → Frame H
  | build b =>
    let clock := b.clock.getD H.wallClock
    .building b clock (H.invoke .clock clock ())
  | complete p o => .completing p (.claim o)
  | cancel p => .cancelling p none
  | listen p l => .registering p (.check (.fallible l)) .report
  | observe p l => .registering p (.check (.observer l)) .discard
  | chain p f => .chaining p f none
  | duration p => .measuring p none
  | count p => .counting p .lock
  | get p => .reading p false .attempt
  | getTimeout p limited => .reading p limited .peek
  | wait p => .waiting p
  | poll w waker => .polling w waker .attempt
  | dropWait w => .dropping w
  | interrupt t => .interrupting t .raise
  | clear t => .clearing t false
  | take t => .clearing t true
  | now c => .timing (H.invoke .clock c ())
  | classify policy e => .judging policy e none
  | spawn => .spawning
  | fork t work => .forking t work

/-! ## Threads -/

/-- What the top call of a thread has to deal with. -/
inductive Control where
  /-- Its own next stage. -/
  | go
  /-- The answer of the call it was waiting for. -/
  | ret (a : Answer)
  /-- A panic on its way through. -/
  | raise (panic : String)

/-- The promises that a control keeps alive. -/
def Control.handles : Control → List PromiseId
  | ret a => a.handles
  | _ => []

/-- A thread. Without calls in progress it has nothing to do, and its control tells how its last
work ended. -/
structure Thread (H : Host) where
  control : Control := .ret .unit
  /-- The calls in progress, the innermost first. -/
  frames : List (Frame H) := []
  token : Token := {}

namespace Thread

variable {H : Host}

instance : Inhabited (Thread H) := ⟨{}⟩

/-- Whether the thread has nothing to do. -/
def isIdle (t : Thread H) : Bool := t.frames.isEmpty

/-- Whether a panic is being cleaned up on the thread. -/
def isUnwinding (t : Thread H) : Bool := t.frames.any Frame.isCleanup

/-- Whether the thread sleeps on a latch. -/
def isAsleep (t : Thread H) : Bool :=
  match t.frames with
  | .reading _ _ .asleep :: _ => true
  | _ => false

/-- The promises that a thread keeps alive. -/
def handles (t : Thread H) : List PromiseId := t.control.handles ++ t.frames.flatMap Frame.handles

/-- Wakes the thread if it sleeps on the latch of `p`. -/
def rouse (t : Thread H) (p : PromiseId) : Thread H :=
  match t.frames with
  | .reading q limited .asleep :: rest =>
    if q = p then { t with frames := .reading q limited (.lockGate false) :: rest } else t
  | _ => t

end Thread

end OneShot
