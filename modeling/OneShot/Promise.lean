import OneShot.Host
import OneShot.Latch
import OneShot.Registry
import OneShot.WakerSet

/-!
# Promises

The state of one promise and what can be seen of it. A promise completes in separate steps, so the
cells below change one after the other: the status is claimed, the outcome is stored, the latch
opens, the waker set is taken, the listeners are drained.

- **Construction** (`Builder`, `Promise.make`): a pending promise with a start time.
- **Seen by consumers**: `isDone`, `isCancelled`, `isFailed`, `result`, `error`, `tryGet`,
  `endTime`, `listenerCount`. All but `isCancelled` look at the latch first.
- **Times** (`Promise.stamp`, `Promise.elapsed`): the end time is never zero and never before the
  start time.
-/

namespace OneShot

/-- What decides about a failed listener. -/
inductive Policy (H : Host) where
  /-- Absorbs failures of listeners whose target is gone, and propagates all others. -/
  | standard
  | absorbAll
  | propagateAll
  /-- The program decides. -/
  | custom (classify : H.Closure .policy)

/-- How a promise is to be made. -/
structure Builder (H : Host) where
  clock : Option (H.Closure .clock) := none
  policy : Policy H := .standard
  hook : Option (H.Closure .hook) := none

/-- A listener as a promise stores it. -/
inductive Listener (H : Host) where
  /-- May fail. -/
  | fallible (l : H.Closure .listener)
  /-- Cannot fail. -/
  | observer (l : H.Closure .observer)
  /-- Computes the outcome of the promise `target` and completes it. -/
  | chain (f : H.Closure .transform) (target : PromiseId)

/-- The promise that a chain listener completes. -/
def Listener.target? {H : Host} : Listener H → Option PromiseId
  | chain _ target => some target
  | _ => none

/-- The state of one promise. -/
structure Promise (H : Host) where
  status : Status := .init
  /-- Written once, before the latch opens. -/
  outcome : Option Outcome := none
  /-- The reading of the clock at construction. -/
  startTime : UInt64
  latch : Latch := {}
  listeners : Mutex (Registry (Listener H)) := { data := .empty }
  wakers : Mutex (WakerSet (H.Closure .waker)) := { data := {} }
  clock : H.Closure .clock
  policy : Policy H
  hook : Option (H.Closure .hook)
  /-- The promise this one is chained from, for showing only: it does not keep it alive. -/
  origin : Option PromiseId

namespace Promise

variable {H : Host}

/-- A pending promise. -/
def make (startTime : UInt64) (clock : H.Closure .clock) (policy : Policy H)
    (hook : Option (H.Closure .hook)) (origin : Option PromiseId) : Promise H :=
  { startTime, clock, policy, hook, origin }

/-! ## What consumers see -/

/-- The completion time, zero while pending. -/
def endTime (p : Promise H) : UInt64 := p.latch.endTime

/-- Whether the promise has completed. -/
def isDone (p : Promise H) : Bool := p.latch.isOpen

/-- Whether a cancelling completion call has claimed the promise. -/
def isCancelled (p : Promise H) : Bool := p.status == .cancelled

/-- The outcome, once the latch is open. -/
def settled (p : Promise H) : Option Outcome := if p.isDone then p.outcome else none

/-- Whether the promise has completed with an error. -/
def isFailed (p : Promise H) : Bool :=
  match p.settled with
  | some (.failed _) => true
  | _ => false

/-- The value the promise has completed with, if any. -/
def result (p : Promise H) : Option Value := p.settled.bind Outcome.value?

/-- The error the promise has completed with, if any. -/
def error (p : Promise H) : Option Value := p.settled.bind Outcome.error?

/-- What a read gives, once the promise is done. -/
def tryGet (p : Promise H) : Option (Except ReadError Value) := p.settled.map Outcome.read

/-- How many listeners wait for the promise. -/
def listenerCount (p : Promise H) : Nat := p.listeners.data.length

/-! ## Times -/

/-- The end time that a clock reading at completion stands for. -/
def stamp (p : Promise H) (reading : UInt64) : UInt64 := max (max reading p.startTime) 1

/-- The time from the construction to `time`, or zero if that lies before it. -/
def elapsed (p : Promise H) (time : UInt64) : UInt64 :=
  if time < p.startTime then 0 else time - p.startTime

theorem toNat_max (a b : UInt64) : (max a b).toNat = max a.toNat b.toNat := by
  change (if a ≤ b then b else a).toNat = _
  split
  · rename_i h
    rw [UInt64.le_iff_toNat_le] at h
    omega
  · rename_i h
    rw [UInt64.le_iff_toNat_le] at h
    omega

theorem toNat_stamp (p : Promise H) (reading : UInt64) :
    (p.stamp reading).toNat = max (max reading.toNat p.startTime.toNat) 1 := by
  simp [stamp, toNat_max]

theorem toNat_elapsed (p : Promise H) (time : UInt64) :
    (p.elapsed time).toNat = time.toNat - p.startTime.toNat := by
  unfold elapsed
  split
  · rename_i h
    rw [UInt64.lt_iff_toNat_lt] at h
    simp
    omega
  · rename_i h
    rw [UInt64.not_lt] at h
    exact UInt64.toNat_sub_of_le _ _ h

theorem stamp_ne_zero (p : Promise H) (reading : UInt64) : p.stamp reading ≠ 0 := by
  intro h
  have h0 := p.toNat_stamp reading
  rw [h] at h0
  simp at h0
  omega

/-! ## The steps of a completion -/

/-- Claims a promise nobody has claimed. -/
def claim (p : Promise H) (o : Outcome) : Option (Promise H) :=
  if p.status = .init then some { p with status := o.status } else none

/-- Opens the latch at a time. -/
def openLatch (p : Promise H) (time : UInt64) : Promise H :=
  { p with latch := { p.latch with endTime := time } }

/-! ## Shown -/

/-- The structured form of a promise. -/
def layout (p : Promise H) : Text.Layout :=
  .record "Promise" [
    ("state", .atom (Text.Quoted.quote p.status.name)),
    ("result", .option (p.result.map Value.layout)),
    ("error", .option (p.error.map Value.layout)),
    ("start_time", .atom (toString p.startTime)),
    ("end_time", .atom (toString p.endTime)),
    ("listeners", .atom (toString p.listenerCount))]

end Promise

/-- The structured form of a policy, which shows nothing of it. -/
def Policy.layout {H : Host} (_ : Policy H) : Text.Layout := .hidden "ListenerPolicy"

/-- The structured form of a builder. -/
def Builder.layout {H : Host} (b : Builder H) : Text.Layout :=
  .record "Builder" [
    ("custom_clock", .bool b.clock.isSome),
    ("policy", b.policy.layout),
    ("cancel_hook", .bool b.hook.isSome)]

end OneShot
