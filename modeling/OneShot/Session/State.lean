import OneShot.Machine.Behaviour
import OneShot.Session.Script

/-!
# The program of a session

A session is a program around the library whose code is scripted. This module says what that
program keeps and what its code is made of.

- **Data** (`State`): names for promises, clocks, waits, wakers and threads, the clocks themselves,
  and the reads started on other threads.
- **Code** (`Code`): a scripted callback first runs its operations, one after the other, and then
  ends. `Pending` is what an operation still has to do after a call of the library.
- **The host** (`host`): the above as seen by the library.
-/

namespace OneShot.Session

/-! ## Data -/

/-- What a handle can do. -/
inductive HandleKind where
  | ordinary
  /-- Completes without a value. -/
  | unit
  /-- Is completed by its source only. -/
  | chain
  deriving DecidableEq, Repr, Inhabited

/-- A handle of a promise. -/
structure Handle where
  id : PromiseId
  kind : HandleKind
  deriving DecidableEq, Repr, Inhabited

/-- A clock with what is to be done at some of its reads. -/
structure Clock where
  face : ClockFace
  reads : Nat := 0
  hooks : List (Nat × Ops)

/-- A read started on another thread. -/
structure Started where
  thread : ThreadId
  promise : PromiseId
  kind : ReadKind
  /-- The read is known to be over. -/
  settled : Bool := false
  result : Option (Except ReadError Value) := none

/-- A table from names to things. Binding a name again replaces what it stood for. -/
abbrev Table (κ α : Type) := List (κ × α)

namespace Table

variable {κ α : Type} [BEq κ]

/-- What a name stands for. -/
def get? (t : Table κ α) (name : κ) : Option α := t.lookup name

/-- The table without a name. -/
def erase (t : Table κ α) (name : κ) : Table κ α := t.filter (·.1 != name)

/-- The table with a name bound. -/
def bind (t : Table κ α) (name : κ) (a : α) : Table κ α := (name, a) :: erase t name

variable [LawfulBEq κ]

/-- Erasing a name leaves what the other names stand for. -/
theorem get?_erase (t : Table κ α) (a b : κ) :
    (t.erase a).get? b = if b == a then none else t.get? b := by
  induction t with
  | nil => simp [erase, get?]
  | cons entry rest ih =>
    obtain ⟨c, x⟩ := entry
    simp only [erase, get?] at ih ⊢
    by_cases hca : c = a
    · subst hca
      simp only [List.filter_cons, bne_self_eq_false, Bool.false_eq_true, if_false, ih,
        List.lookup_cons]
      cases b == c <;> rfl
    · simp only [List.filter_cons, bne_iff_ne, ne_eq, hca, not_false_eq_true, if_true,
        List.lookup_cons, ih]
      cases hbc : b == c
      · rfl
      · simp [eq_of_beq hbc, hca]

/-- A name stands for what it was bound to last, and the other names for what they stood for. -/
theorem get?_bind (t : Table κ α) (a b : κ) (x : α) :
    (t.bind a x).get? b = if b == a then some x else t.get? b := by
  have h := get?_erase t a b
  simp only [get?] at h
  simp only [bind, get?, List.lookup_cons, h]
  cases b == a <;> rfl

end Table

/-- A race: threads that do the same to a promise at once. -/
structure Race where
  /-- The number of its tally. -/
  tally : Nat
  promise : PromiseId
  /-- The value that the promise is completed with. -/
  value : Value
  /-- The threads of the race complete the promise; else they register listeners. -/
  completing : Bool

/-- What the program of a session keeps. -/
structure State where
  /-- Promises use the wall clock, and times are not told. -/
  system : Bool := false
  promises : Table String Handle := []
  clockNames : Table String Nat := []
  clocks : Array Clock := #[]
  waits : Table String WaitId := []
  /-- The promise that each waker watches, by name. -/
  watches : Table Tag String := []
  threads : Table String ThreadId := []
  /-- The names of the threads, by number. -/
  threadNames : Table ThreadId String := []
  started : List Started := []
  /-- For each race, by number, how many of its threads have completed the promise, or how many of
  their listeners have run. -/
  tallies : Array Nat := #[]
  /-- What the operation at the top has reported. -/
  report : Option Report := none

namespace State

/-- The name of a thread. -/
def threadName (s : State) (t : ThreadId) : String := (s.threadNames.get? t).getD ""

/-- The read started on a thread. -/
def started? (s : State) (t : ThreadId) : Option Started := s.started.find? (·.thread == t)

/-- The state with the read started on a thread changed. -/
def modifyStarted (s : State) (t : ThreadId) (f : Started → Started) : State :=
  { s with started := s.started.map fun r => if r.thread == t then f r else r }

/-- The state without the read started on a thread. -/
def eraseStarted (s : State) (t : ThreadId) : State :=
  { s with started := s.started.filter (·.thread != t) }

/-- What a race has counted so far. -/
def tally (s : State) (race : Nat) : Nat := s.tallies[race]?.getD 0

/-- The state with one more counted for a race. -/
def count (s : State) (race : Nat) : State := { s with tallies := s.tallies.modify race (· + 1) }

theorem tally_count (s : State) (race other : Nat) (h : race < s.tallies.size) :
    (s.count race).tally other = if race = other then s.tally other + 1 else s.tally other := by
  by_cases hr : race = other
  · subst hr
    simp [tally, count, Array.getElem_modify, h]
  · simp [tally, count, Array.getElem?_modify, hr]

/-- The promises that the program holds handles of. -/
def handles (s : State) : List PromiseId := s.promises.map (·.2.id) ++ s.started.map (·.promise)

end State

/-! ## Code -/

/-- A clock as promises know it. -/
inductive ClockRef where
  | wall
  | scripted (clock : Nat)
  deriving DecidableEq, Repr

/-- Who is woken by a waker. -/
inductive WakerRef where
  /-- A task known by an identifier. -/
  | task (id : Tag)
  /-- A thread that awaits a promise. -/
  | thread (t : ThreadId)
  deriving DecidableEq, Repr

/-- What is left to do for an operation after a call of the library. -/
inductive Pending where
  /-- To report the answer as it is. -/
  | reply
  /-- To report this. -/
  | report (r : Report)
  /-- To bind a new promise to a name. -/
  | bindPromise (name : String) (kind : HandleKind)
  /-- To bind a new chained promise to a name. -/
  | bindDerived (name : String)
  /-- To bind a new wait to a name. -/
  | bindWait (name : String)
  /-- To report a duration. -/
  | elapsed
  /-- To report all that is to be seen of a promise, when its duration is known. -/
  | inspected (h : Handle) (seen : Inspection)
  /-- To report a reading. -/
  | reading
  /-- To report a disposition. -/
  | judged (policy : String)
  /-- To name a new thread, and then to begin with an operation. -/
  | named (thread : String) (op : Op)
  /-- To wait until the operations run by a thread are over. -/
  | running (t : ThreadId)
  /-- To wait until the read started on a thread is over or blocks. -/
  | starting (t : ThreadId)
  /-- To wait until the interrupted read of a thread is over. -/
  | settling (t : ThreadId)
  /-- To wait until the read of a thread is over, and to report its result. -/
  | joining (t : ThreadId)
  /-- To give work to a new thread of a race, and to wait until that is done; `left` threads
  follow. -/
  | racing (race : Race) (left : Nat) (t : Option ThreadId)
  /-- To complete the promise of a race, and then to report. -/
  | raced (race : Race) (r : Option (Except ListenerError Bool))

/-- Nested operations in progress. -/
structure Block where
  /-- How deeply they are nested. -/
  level : Nat
  /-- The promise they run for. -/
  self : Option Handle
  ops : Ops
  /-- The operation under way. -/
  current : Option (Tag × Pending) := none
  /-- The last listener failure that an operation ran into. -/
  failure : Option ListenerError := none

/-- How far a scripted callback has come. -/
inductive Progress where
  /-- It has just been called. -/
  | fresh
  /-- Its operations run. -/
  | doing (b : Block)
  /-- Its operations are over. -/
  | closing (failure : Option ListenerError)
  /-- The call that ends it is under way. -/
  | calling

/-- A scripted callback in progress. -/
structure Script (ε : Type) where
  /-- The promise it was called for. -/
  self : Option Handle
  ops : Ops := []
  ending : ε
  progress : Progress := .fresh

/-- What a listener without failures does. -/
inductive ObserverClosure where
  | scripted (spec : ListenerSpec Op) (kind : HandleKind)
  /-- Counts for a race that it was run. -/
  | counting (race : Nat)

/-- The work of a thread. -/
inductive Work where
  /-- An operation at the top. -/
  | operation (op : Op)
  /-- Nested operations for another thread. -/
  | block (level : Nat) (self : Option Handle) (ops : Ops)
  /-- A read started by another thread. -/
  | read (p : PromiseId) (kind : ReadKind)
  /-- What each thread of a race does. -/
  | race (race : Race)

/-- The work of a thread in progress. -/
inductive Task where
  | fresh (work : Work)
  /-- An operation at the top is under way. -/
  | operation (k : Pending)
  | block (b : Block)
  /-- A blocking read is under way. -/
  | reading
  /-- A wait is being made. -/
  | opening (p : PromiseId)
  /-- A wait is being polled. -/
  | polling (p : PromiseId) (w : WaitId)
  /-- A wait is pending. -/
  | resting (p : PromiseId) (w : WaitId)
  /-- The completion call of a race is under way. -/
  | racing (race : Nat)
  /-- A call is under way that ends the work. -/
  | last

/-- Code that is stored, by role. -/
abbrev Closure : Role → Type
  | .task => Work
  | .clock => ClockRef
  | .policy => RuleSet Op
  | .listener => ListenerSpec Op × HandleKind
  | .observer => ObserverClosure
  | .transform => TransformSpec Op × HandleKind
  | .hook => HookSpec Op × HandleKind
  | .waker => WakerRef

/-- A listener without failures in progress. -/
inductive ObserverCode where
  | scripted (id : Tag) (s : Script Ending)
  | counting (race : Nat)

/-- Code in progress, by role. -/
abbrev Code : Role → Type
  | .task => Task
  | .clock => ClockRef × Script Nat
  | .policy => Script (RuleSet Op × ListenerError)
  | .listener => Tag × Script Ending
  | .observer => ObserverCode
  | .transform => Tag × Script (TransformEnding × PromiseId)
  | .hook => Tag × Script (HookEnding × PromiseId)
  | .waker => WakerRef

/-- The handle that a callback gets of the promise it was registered with. -/
def selfHandle (p : PromiseId) (kind : HandleKind) : Handle :=
  { id := p, kind := if kind = .unit then .unit else .ordinary }

/-- Calls a closure. -/
def invoke : (r : Role) → Closure r → r.Arg → Code r
  | .task, work, _ => .fresh work
  | .clock, ref, _ => (ref, { self := none, ending := 0 })
  | .policy, rules, e => { self := none, ops := rules.ops, ending := (rules, e) }
  | .listener, (spec, kind), p =>
    (spec.id, { self := some (selfHandle p kind), ops := spec.ops, ending := spec.ending })
  | .observer, .scripted spec kind, p =>
    .scripted spec.id { self := some (selfHandle p kind), ops := spec.ops, ending := spec.ending }
  | .observer, .counting race, _ => .counting race
  | .transform, (spec, kind), p =>
    (spec.id, { self := some (selfHandle p kind), ops := spec.ops, ending := (spec.ending, p) })
  | .hook, (spec, kind), p =>
    (spec.id, { self := some (selfHandle p kind), ops := spec.ops, ending := (spec.ending, p) })
  | .waker, ref, _ => ref

/-- The program of a session as the library sees it. -/
abbrev host : Host where
  Closure := Closure
  Code := Code
  invoke := invoke
  State := State
  Event := Notice
  handles := State.handles
  wallClock := .wall
  sameTask a b := a == b

end OneShot.Session
