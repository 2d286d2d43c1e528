import OneShot.Session.Report

/-!
# Scripts

The operations of a session, and the scripted callbacks that they hand to the library. A callback
may hold operations of its own, which run when it is called.

- **Fields** (`Field`): a part of an operation that may turn out to be missing or malformed. Such
  an operation is reported as a fault when its turn comes.
- **Callbacks** (`ListenerSpec`, `TransformSpec`, `HookSpec`, `PolicySpec`): what runs first, and
  how the callback ends.
- **Operations** (`Op`).
-/

namespace OneShot.Session

/-- A part of an operation, or what is wrong with it. -/
abbrev Field (α : Type) := Except Fault α

/-- An operation with the name that it is reported under. -/
structure Named (α : Type) where
  name : Tag
  op : α

/-! ## Callbacks -/

/-- How a listener ends. -/
inductive Ending where
  | succeed
  | fail (e : ListenerError)
  /-- With the last listener failure that one of its operations ran into. -/
  | forward
  | panic (x : String)
  deriving DecidableEq, Repr, Inhabited

/-- How a chain callback ends. -/
inductive TransformEnding where
  /-- With the outcome of the source. -/
  | pass
  | ok (v : Value)
  | err (v : Value)
  /-- With the outcome of the source plus a number. -/
  | add (n : Int)
  /-- With the integer of the source if it is greater than a number. -/
  | min (n : Int)
  /-- With the outcome of the source, value and error exchanged. -/
  | swap
  /-- With whether the source was cancelled. -/
  | cancelled
  /-- With how the source is shown. -/
  | display
  | panic (x : String)
  deriving DecidableEq, Repr, Inhabited

/-- How a cancellation hook ends. -/
inductive HookEnding where
  | answer (b : Bool)
  /-- By cancelling the promise. -/
  | cancel
  /-- As a listener does. -/
  | plain (ending : Ending)
  deriving DecidableEq, Repr, Inhabited

/-- A listener. -/
structure ListenerSpec (α : Type) where
  id : Tag
  ops : List (Named α)
  ending : Ending

/-- A chain callback. -/
structure TransformSpec (α : Type) where
  id : Tag
  ops : List (Named α)
  ending : TransformEnding

/-- A cancellation hook. -/
structure HookSpec (α : Type) where
  id : Tag
  ops : List (Named α)
  ending : HookEnding

/-- A rule of a policy: it matches failures of a kind, or any, whose message contains a text. -/
structure Rule where
  variant : Option String
  contains : Option String
  verdict : Disposition
  deriving DecidableEq, Repr

/-- A policy that is a list of rules: the first that matches decides. -/
structure RuleSet (α : Type) where
  rules : List Rule
  otherwise : Disposition
  ops : List (Named α)

/-- A policy. -/
inductive PolicySpec (α : Type) where
  | standard
  | absorbAll
  | propagateAll
  | custom (rules : RuleSet α)

/-! ## Operations -/

/-- What a clock shows. -/
inductive ClockFace where
  /-- Moves only when told to. -/
  | manual (now : UInt64)
  /-- Moves by `step` whenever it has been read. -/
  | tick (now step : UInt64)
  /-- The `n`-th read gives the `n`-th of these, and the last one for ever after. -/
  | readings (ms : List UInt64)
  deriving DecidableEq, Repr, Inhabited

/-- How a promise is to be made. -/
structure PromiseSpec (α : Type) where
  clock : Option (Except Fault String)
  unit : Bool
  policy : Except Fault (PolicySpec α)
  cancel : Except Fault (Option (HookSpec α))
  /-- Made without a builder, which leaves out all the above but `unit`. No fault of theirs is
  reported, and the clock that is named is not even looked for. -/
  plain : Bool

/-- What a promise is asked for. -/
inductive Query where
  | isDone
  | isCancelled
  | isFailed
  | startTime
  | endTime
  | result
  | error
  | display
  | debug (indent : Bool)
  deriving DecidableEq, Repr

/-- How a read is made on another thread. -/
inductive ReadKind where
  | get
  /-- With a deadline far away, or with none. -/
  | getTimeout (limited : Bool)
  /-- Through a wait. -/
  | await
  deriving DecidableEq, Repr

/-- How long a read may take: so many milliseconds, or no limit. -/
abbrev Limit := Option UInt64

/-- The shortest limit, in milliseconds, of a read on another thread, so that no session sees it
expire. -/
def leastLimit : UInt64 := 10000

/-- A read on another thread with a limit, which must not be short. -/
def ReadKind.ofLimit (limit : Limit) : Field ReadKind :=
  if limit.any (· < leastLimit) then throw (.field "read") else pure (.getTimeout limit.isSome)

/-- An operation. -/
inductive Op where
  /-- The operation cannot be made out. -/
  | malformed (f : Fault)
  | clock (name : Field String) (face : Field ClockFace)
      (hooks : Except Fault (List (Nat × List (Named Op))))
  | set (clock : Field String) (ms : Field UInt64)
  | advance (clock : Field String) (ms : Field UInt64)
  | clockDebug (clock : Field String)
  | now (clock : Field String)
  | reads (clock : Field String)
  | wallClock
  | new (name : Field String) (spec : PromiseSpec Op)
  | builderDebug (spec : PromiseSpec Op) (indent : Bool)
  | clone (p name : Field String)
  | drop (p : Field String)
  | samePromise (p q : Field String)
  /-- Completes with a value. -/
  | resolve (p : Field String) (v : Field Value)
  /-- Completes a promise that carries no value. -/
  | resolveUnit (p : Field String)
  /-- Completes with an error. -/
  | reject (p : Field String) (v : Field Value)
  /-- Completes with an error or a value. -/
  | settle (p : Field String) (r : Except (Field Value) (Field Value))
  /-- Completes as cancelled. -/
  | markCancelled (p : Field String)
  /-- Runs the cancellation hook. -/
  | cancel (p : Field String)
  | listen (p : Field String) (l : Except Fault (ListenerSpec Op))
  | observe (p : Field String) (l : Except Fault (ListenerSpec Op))
  | chain (p name : Field String) (cb : Except Fault (TransformSpec Op))
  | query (p : Field String) (q : Query)
  | listenerCount (p : Field String)
  | duration (p : Field String)
  | inspect (p : Field String)
  | get (p : Field String)
  | getTimeout (p : Field String) (limit : Field Limit)
  | tryGet (p : Field String)
  | wait (p name : Field String)
  | poll (w : Field String) (waker : Field Tag) (watch : Option String)
  | waitDebug (w : Field String)
  | wakerRefs (waker : Field Tag)
  | dropWait (w : Field String)
  | interrupt (thread : Field String)
  | clear (thread : Field String)
  | take (thread : Field String)
  | isInterrupted (thread : Field String)
  | interruptDebug (thread : Field String)
  | run (thread : Field String) (ops : Except Fault (List (Named Op)))
  | start (thread p : Field String) (read : Field ReadKind)
  | join (thread : Field String)
  | raceComplete (p : Field String) (n : Field Nat) (v : Field Value)
  | raceListen (p : Field String) (n : Field Nat) (v : Field Value)
  | readError (e : Field ReadError)
  | readErrorEq (a b : Field ReadError)
  | listenerError (e : Field ListenerError)
  | classify (policy : Except Fault (PolicySpec Op)) (e : Field ListenerError)

/-- A list of nested operations. -/
abbrev Ops := List (Named Op)

end OneShot.Session
