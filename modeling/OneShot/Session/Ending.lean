import OneShot.Session.Block

/-!
# Endings

How a scripted callback ends once its operations are over.

- **Panics** (`panicOr`): a callback that is to panic while a panic is being cleaned up on its
  thread logs that and ends as if it were not to.
- **Listeners, hooks, chain callbacks** (`endListener`, `endObserver`, `endHook`, `endTransform`).
- **Policies** (`RuleSet.decide`): the first rule that applies decides.
-/

namespace OneShot.Session

/-- Whether a panic is being cleaned up on a thread. -/
def isUnwinding (m : Machine host) (t : ThreadId) : Bool := (m.thread? t).any Thread.isUnwinding

/-- Panics, or ends otherwise if a panic is being cleaned up. -/
def panicOr {r : Role} (m : Machine host) (t : ThreadId) (x : String) (v : r.Reply) :
    Reaction host r :=
  if isUnwinding m t then { state := m.program, events := [.panicSuppressed x], act := .finish v }
  else { state := m.program, act := .panic x }

/-- How a listener ends. -/
def endListener (m : Machine host) (t : ThreadId) (failure : Option ListenerError) :
    Ending → Reaction host .listener
  | .succeed => { state := m.program, act := .finish (.ok ()) }
  | .fail e => { state := m.program, act := .finish (.error e) }
  | .forward =>
    { state := m.program
      act := .finish (match failure with
        | some e => .error e
        | none => .ok ()) }
  | .panic x => panicOr m t x (.ok ())

/-- How a listener without failures ends. -/
def endObserver (m : Machine host) (t : ThreadId) : Ending → Reaction host .observer
  | .panic x => panicOr m t x ()
  | _ => { state := m.program, act := .finish () }

/-- How a cancellation hook ends, unless it cancels. -/
def endHook (m : Machine host) (t : ThreadId) (failure : Option ListenerError) :
    Ending → Reaction host .hook
  | .succeed => { state := m.program, act := .finish (.ok false) }
  | .fail e => { state := m.program, act := .finish (.error e) }
  | .forward =>
    { state := m.program
      act := .finish (match failure with
        | some e => .error e
        | none => .ok false) }
  | .panic x => panicOr m t x (.ok false)

/-- The outcome of the source of a chain callback. -/
def pass (m : Machine host) (p : PromiseId) : Except Value Value :=
  match (m.promise? p).bind Promise.tryGet with
  | some (.ok v) => .ok v
  | some (.error (.execution e)) => .error e
  | some (.error e) => .error (.text e.message)
  | none => .error .unit

/-- How the source of a chain callback is shown. -/
def shown (m : Machine host) (p : PromiseId) : String :=
  if m.program.system then mask (m.display p) else m.display p

/-- The error for a source without an integer that is great enough. -/
def tooSmall (m : Machine host) (p : PromiseId) : Except Value Value :=
  .error (.text ("too small: " ++ shown m p))

/-- What a chain callback gives, unless it panics. -/
def transformResult (m : Machine host) (p : PromiseId) : TransformEnding → Except Value Value
  | .pass | .panic _ => pass m p
  | .ok v => .ok v
  | .err v => .error v
  | .add n => pass m p >>= (·.add n)
  | .min n =>
    match (m.promise? p).bind Promise.result with
    | some (.int i) => if n < i then .ok (.int i) else tooSmall m p
    | _ => tooSmall m p
  | .swap =>
    match pass m p with
    | .ok v => .error v
    | .error e => .ok e
  | .cancelled => .ok (.bool ((m.promise? p).any Promise.isCancelled))
  | .display => .ok (.text (shown m p))

/-- How a chain callback ends. -/
def endTransform (m : Machine host) (t : ThreadId) (p : PromiseId) (ending : TransformEnding) :
    Reaction host .transform :=
  match ending with
  | .panic x => panicOr m t x (transformResult m p ending)
  | _ => { state := m.program, act := .finish (transformResult m p ending) }

/-- Whether a text is part of another. -/
def occursIn (part : List Char) : List Char → Bool
  | [] => part.isEmpty
  | c :: cs => part.isPrefixOf (c :: cs) || occursIn part cs

/-- Whether a rule is for a failure. -/
def Rule.applies (rule : Rule) (e : ListenerError) : Bool :=
  rule.variant.all (· == e.kind) &&
    rule.contains.all fun text => occursIn text.toList e.message.toList

/-- The decision of a list of rules. -/
def RuleSet.decide (rules : RuleSet Op) (e : ListenerError) : Disposition :=
  match rules.rules.find? (·.applies e) with
  | some rule => rule.verdict
  | none => rules.otherwise

end OneShot.Session
