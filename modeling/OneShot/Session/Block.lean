import OneShot.Session.Pending

/-!
# Nested operations

- **Nested operations** (`Block.resume`): one after the other, each reported in the log when it is
  over. A panic ends them all and nothing is reported for those it passes.
- **Levels** (`currentLevel`, `enterBlock`): operations are nested at most `maxLevel` deep; at the
  next level none is run.
- **Callbacks** (`Script.resume`): log that they have been called, run their operations, and end.
-/

namespace OneShot.Session

/-- How deeply operations may be nested. -/
def maxLevel : Nat := 64

/-! ## Nested operations -/

/-- How nested operations go on. -/
inductive BlockNext where
  | call (c : Call host) (b : Block)
  | stay (b : Block)
  /-- They are over; the last listener failure that one ran into. -/
  | over (failure : Option ListenerError)
  | throw (x : String)

/-- A step of nested operations. -/
structure BlockStep where
  state : State
  events : List Notice := []
  next : BlockNext

namespace Block

/-- What follows a step of the operation under way. -/
def follow (b : Block) (name : Tag) (s : OpStep) : BlockStep :=
  match s.next with
  | .done r =>
    { state := s.state
      events := s.events ++ [.operation name r]
      next := .stay { b with current := none, failure := r.failure?.or b.failure } }
  | .call c k =>
    { state := s.state, events := s.events, next := .call c { b with current := some (name, k) } }
  | .stay k =>
    { state := s.state, events := s.events, next := .stay { b with current := some (name, k) } }
  | .throw x => { state := s.state, events := s.events, next := .throw x }

/-- A step of nested operations. -/
def resume (b : Block) (m : Machine host) (t : ThreadId) (c : Control) : BlockStep :=
  let ctx : Context := { machine := m, thread := t, self := b.self, level := b.level }
  match b.current, b.ops with
  | some (name, k), _ => b.follow name (k.resume ctx c)
  | none, op :: rest => { b with ops := rest }.follow op.name (perform ctx op.op)
  | none, [] => { state := m.program, next := .over b.failure }

end Block

/-! ## Levels -/

/-- The level of the nested operations that code runs, if it does. -/
def levelOf : (r : Role) → Code r → Option Nat
  | .task, .block b => some b.level
  | .task, .fresh (.block level _ _) => some level
  | .clock, (_, { progress := .doing b, .. }) => some b.level
  | .policy, { progress := .doing b, .. } => some b.level
  | .listener, (_, { progress := .doing b, .. }) => some b.level
  | .observer, .scripted _ { progress := .doing b, .. } => some b.level
  | .transform, (_, { progress := .doing b, .. }) => some b.level
  | .hook, (_, { progress := .doing b, .. }) => some b.level
  | _, _ => none

/-- The level of the innermost nested operations under way on a thread. -/
def currentLevel (m : Machine host) (t : ThreadId) : Nat :=
  match m.thread? t with
  | some th => (th.frames.findSome? fun f => f.code?.bind fun ⟨r, code⟩ => levelOf r code).getD 0
  | none => 0

/-- Begins nested operations at a level, unless that is too deep. -/
def enterBlock (level : Nat) (self : Option Handle) (ops : Ops) : Except Notice Block :=
  if maxLevel < level then .error .tooDeep else .ok { level, self, ops }

/-! ## Callbacks -/

/-- How a callback goes on. -/
inductive ScriptNext (ε : Type) where
  | call (c : Call host) (s : Script ε)
  | stay (s : Script ε)
  /-- It has to end; the last listener failure that one of its operations ran into. -/
  | close (failure : Option ListenerError)
  | throw (x : String)

/-- A step of a callback. -/
structure ScriptStep (ε : Type) where
  state : State
  events : List Notice := []
  next : ScriptNext ε

/-- A step of a callback that logs `opening` when it is called. -/
def Script.resume {ε : Type} (s : Script ε) (m : Machine host) (t : ThreadId) (opening : Notice)
    (c : Control) : ScriptStep ε :=
  match s.progress with
  | .fresh =>
    match enterBlock (currentLevel m t + 1) s.self s.ops with
    | .ok b =>
      { state := m.program, events := [opening], next := .stay { s with progress := .doing b } }
    | .error notice =>
      { state := m.program, events := [opening, notice],
        next := .stay { s with progress := .closing none } }
  | .doing b =>
    let step := b.resume m t c
    { state := step.state
      events := step.events
      next := match step.next with
        | .call callee b => .call callee { s with progress := .doing b }
        | .stay b => .stay { s with progress := .doing b }
        | .over failure => .stay { s with progress := .closing failure }
        | .throw x => .throw x }
  | .closing failure => { state := m.program, next := .close failure }
  | .calling => { state := m.program, next := .close none }

/-- What a callback does, where `close` says how it ends. -/
def ScriptStep.react {ε : Type} {r : Role} (step : ScriptStep ε) (wrap : Script ε → Code r)
    (close : Option ListenerError → Reaction host r) : Reaction host r :=
  match step.next with
  | .call c s => { state := step.state, events := step.events, act := .call c (wrap s) }
  | .stay s => { state := step.state, events := step.events, act := .stay (wrap s) }
  | .close failure => close failure
  | .throw x => { state := step.state, events := step.events, act := .panic x }

end OneShot.Session
