import OneShot.Session.Ending

/-!
# How scripted code runs

- **Clocks** (`resumeClock`): a read is counted, then what is to be done at it is done, and then the
  clock is read.
- **Wakers** (`resumeWaker`): log what they see of the promise they watch.
- **Threads** (`beginWork`, `resumeTask`): the operation at the top, nested operations for another
  thread, and reads and races.
- **The behaviour** (`behaviour`): all code of a session, by role.
-/

namespace OneShot.Session

/-! ## Clocks and wakers -/

/-- The reading that the `n`-th read of a clock gives, and the face after it. -/
def ClockFace.read (n : Nat) : ClockFace → UInt64 × ClockFace
  | manual now => (now, manual now)
  | tick now step => (now, tick (now + step) step)
  | readings ms => ((ms[n - 1]?.or ms.getLast?).getD 0, readings ms)

/-- The time that the wall clock shows. It is never told. -/
def wallTime : UInt64 := 1

/-- A step of reading a clock. The read is counted first, then what is to be done at that read is
done, and then the clock is read. -/
def resumeClock (m : Machine host) (t : ThreadId) (ref : ClockRef) (s : Script Nat)
    (c : Control) : Reaction host .clock :=
  let st := m.program
  match ref with
  | .wall => { state := st, act := .finish wallTime }
  | .scripted i =>
    match st.clocks[i]? with
    | none => { state := st, act := .finish 0 }
    | some clock =>
      let read (n : Nat) : Reaction host .clock :=
        let (ms, face) := clock.face.read n
        { state := { st with clocks := st.clocks.modify i ({ · with face }) }, act := .finish ms }
      match s.progress with
      | .fresh =>
        let n := clock.reads + 1
        let st := { st with clocks := st.clocks.modify i ({ · with reads := n }) }
        let s := { s with ending := n }
        match clock.hooks.lookup n with
        | none => { state := st, act := .stay (ref, { s with progress := .closing none }) }
        | some ops =>
          ({ s with ops }.resume { m with program := st } t (.clockRead n) c).react
            (r := .clock) (ref, ·) fun _ => read n
      | _ =>
        (s.resume m t (.clockRead s.ending) c).react (r := .clock) (ref, ·) fun _ => read s.ending

/-- Calls a waker. -/
def resumeWaker (m : Machine host) (ref : WakerRef) : Reaction host .waker :=
  let st := m.program
  match ref with
  | .thread _ => { state := st, act := .finish () }
  | .task id =>
    let saw := do
      let name ← st.watches.get? id
      let h ← st.promises.get? name
      let pr ← m.promise? h.id
      pure (pr.isDone, pr.listenerCount)
    { state := st, events := [.wake id saw], act := .finish () }

/-! ## Threads -/

/-- Ends a read started on a thread. -/
def endRead (m : Machine host) (t : ThreadId) (r : Except ReadError Value) : State :=
  m.program.modifyStarted t ({ · with result := some r })

/-- A step of an operation at the top. -/
def reactTop (s : OpStep) : Reaction host .task :=
  match s.next with
  | .done r =>
    { state := { s.state with report := some r }, events := s.events, act := .finish () }
  | .call c k => { state := s.state, events := s.events, act := .call c (.operation k) }
  | .stay k => { state := s.state, events := s.events, act := .stay (.operation k) }
  | .throw x => { state := s.state, events := s.events, act := .panic x }

/-- The first step of the work of a thread. -/
def beginWork (m : Machine host) (t : ThreadId) : Work → Reaction host .task
  | .operation op => reactTop (perform { machine := m, thread := t, self := none, level := 0 } op)
  | .block level self ops =>
    match enterBlock (level + 1) self ops with
    | .ok b => { state := m.program, act := .stay (.block b) }
    | .error notice => { state := m.program, events := [notice], act := .finish () }
  | .read p .get => { state := m.program, act := .call (.get p) .reading }
  | .read p (.getTimeout limited) =>
    { state := m.program, act := .call (.getTimeout p limited) .reading }
  | .read p .await => { state := m.program, act := .call (.wait p) (.opening p) }
  | .race race =>
    { state := m.program
      act := if race.completing then
          .call (.complete race.promise (.value race.value)) (.racing race.tally)
        else .call (.observe race.promise (.counting race.tally)) .last }

/-- A step of the work of a thread. -/
def resumeTask (m : Machine host) (t : ThreadId) (task : Task) (c : Control) :
    Reaction host .task :=
  let st := m.program
  match task, c with
  | .fresh work, _ => beginWork m t work
  | .operation k, c =>
    reactTop (k.resume { machine := m, thread := t, self := none, level := 0 } c)
  | .block b, c =>
    let step := b.resume m t c
    { state := step.state
      events := step.events
      act := match step.next with
        | .call callee b => .call callee (.block b)
        | .stay b => .stay (.block b)
        | .over _ => .finish ()
        | .throw x => .panic x }
  | _, .raise x => { state := st, act := .panic x }
  | .reading, .ret (.read r) => { state := endRead m t r, act := .finish () }
  | .opening p, .ret (.wait w) => { state := st, act := .call (.poll w (.thread t)) (.polling p w) }
  | .polling p w, .ret (.polled none) => { state := st, act := .stay (.resting p w) }
  | .polling _ w, .ret (.polled (some r)) =>
    { state := endRead m t r, act := .call (.dropWait w) .last }
  | .resting p w, _ =>
    if m.isDone p then { state := st, act := .call (.poll w (.thread t)) (.polling p w) }
    else { state := st, act := .stay (.resting p w) }
  | .racing race, .ret (.settled (.ok true)) => { state := st.count race, act := .finish () }
  | _, _ => { state := st, act := .finish () }

/-! ## All together -/

/-- A step of code, by role. -/
def resume (m : Machine host) (t : ThreadId) :
    (r : Role) → Code r → Control → Reaction host r
  | .task, task, c => resumeTask m t task c
  | .clock, (ref, s), c => resumeClock m t ref s c
  | .policy, s, c =>
    (s.resume m t (.classify s.ending.2) c).react (r := .policy) id fun _ =>
      { state := m.program, act := .finish (s.ending.1.decide s.ending.2) }
  | .listener, (id, s), c =>
    (s.resume m t (.listener id (m.program.threadName t)) c).react (r := .listener) (id, ·)
      fun failure => endListener m t failure s.ending
  | .observer, .counting race, _ => { state := m.program.count race, act := .finish () }
  | .observer, .scripted id s, c =>
    (s.resume m t (.listener id (m.program.threadName t)) c).react (r := .observer)
      (.scripted id) fun _ => endObserver m t s.ending
  | .transform, (id, s), c =>
    (s.resume m t (.chainCallback id (m.program.threadName t)) c).react (r := .transform) (id, ·)
      fun _ => endTransform m t s.ending.2 s.ending.1
  | .hook, (id, s), c =>
    match s.progress, c with
    | .calling, .ret (.settled r) => { state := m.program, act := .finish r }
    | .calling, .raise x => { state := m.program, act := .panic x }
    | _, c =>
      (s.resume m t (.cancelHook id (m.program.threadName t)) c).react (r := .hook) (id, ·)
        fun failure =>
          match s.ending with
          | (.answer b, _) => { state := m.program, act := .finish (.ok b) }
          | (.cancel, p) =>
            { state := m.program
              act := .call (.complete p .cancelled) (id, { s with progress := .calling }) }
          | (.plain ending, _) => endHook m t failure ending
  | .waker, ref, _ => resumeWaker m ref

/-- How the code of a session runs. -/
def behaviour : Behaviour host := { resume := resume }

end OneShot.Session
