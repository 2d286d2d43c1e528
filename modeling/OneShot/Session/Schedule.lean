import OneShot.Machine.Step
import OneShot.Session.Conduct

/-!
# The schedule of a session

While an operation runs, one thread moves at a time: the main thread, or the thread that it waits
for.

- **Who moves** (`focus`): follows the threads that wait for one another.
- **Turns** (`turn`, `drive`): until the main thread has nothing to do. Each is a move of the
  machine, so together they are a run of it (`reaches_drive`).
-/

namespace OneShot.Session

/-- What an operation at the end of a chain of waiting threads waits for. -/
def pendingOf : (r : Role) → Code r → Option Pending
  | .task, .operation k => some k
  | .task, .block b => b.current.map (·.2)
  | .clock, (_, { progress := .doing b, .. }) => b.current.map (·.2)
  | .policy, { progress := .doing b, .. } => b.current.map (·.2)
  | .listener, (_, { progress := .doing b, .. }) => b.current.map (·.2)
  | .observer, .scripted _ { progress := .doing b, .. } => b.current.map (·.2)
  | .transform, (_, { progress := .doing b, .. }) => b.current.map (·.2)
  | .hook, (_, { progress := .doing b, .. }) => b.current.map (·.2)
  | _, _ => none

/-- The thread that has to move before what is pending can go on. -/
def awaited (m : Machine host) : Pending → Option ThreadId
  | .running t | .joining t | .racing _ _ (some t) => if isIdle m t then none else some t
  | .starting t => if isResting m t then none else some t
  | .settling t =>
    match m.program.started? t with
    | some { kind := .get, .. } | some { kind := .getTimeout _, .. } =>
      if isIdle m t then none else some t
    | _ => none
  | _ => none

/-- The thread that moves when thread `t` has to get on; at most `n` others are waited for. -/
def focus (m : Machine host) : Nat → ThreadId → ThreadId
  | 0, t => t
  | n + 1, t =>
    let next := do
      let th ← m.thread? t
      if th.control matches .go then
        let f ← th.frames.head?
        let ⟨r, code⟩ ← f.code?
        let k ← pendingOf r code
        awaited m k
      else none
    match next with
    | some u => focus m n u
    | none => t

/-- One turn: a step of the thread that has to move, or the end of its sleep. -/
def turn (m : Machine host) : Option (Machine host) :=
  let t := focus m m.threads.size 0
  (m.step behaviour t).or (m.expire t)

/-- A turn is a move of the machine. -/
theorem exists_move?_of_turn {m m' : Machine host} (h : turn m = some m') :
    ∃ e, m.move? behaviour e = some m' := by
  rcases Option.or_eq_some_iff.1 h with h | ⟨-, h⟩
  · exact ⟨.step _, h⟩
  · exact ⟨.expire _, h⟩

/-- Takes turns until the main thread has nothing to do, at most `fuel` of them. -/
def drive : Nat → Machine host → Machine host
  | 0, m => m
  | fuel + 1, m =>
    if isIdle m 0 then m
    else
      match turn m with
      | some m => drive fuel m
      | none => m

/-- A machine that is driven goes on with its run. -/
theorem reaches_drive {m₀ m : Machine host} (h : m₀.Reaches behaviour m) (fuel : Nat) :
    m₀.Reaches behaviour (drive fuel m) := by
  induction fuel generalizing m with
  | zero => exact h
  | succ fuel ih =>
    unfold drive
    split
    · exact h
    · split
      · rename_i m' hm'
        obtain ⟨e, he⟩ := exists_move?_of_turn hm'
        exact ih (.tail e h he)
      · exact h

/-- More turns than any operation takes. -/
def maxTurns : Nat := 1000000000000000

end OneShot.Session
