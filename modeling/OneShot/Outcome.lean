import OneShot.Error

/-!
# Outcomes

How a promise ends, and the mark that a completion call claims before anything else.

- **The outcome** (`Outcome`): a value, an error or a cancellation.
- **The status** (`Status`): `init` until a completion call has claimed the promise; then whether
  that call cancels it.
-/

namespace OneShot

/-- How a promise ends. -/
inductive Outcome where
  | value (v : Value)
  | failed (e : Value)
  | cancelled
  deriving DecidableEq, Repr, Inhabited

/-- Whether a promise has been claimed by a completion call, and by which kind. -/
inductive Status where
  | init
  | cancelled
  | done
  deriving DecidableEq, Repr, Inhabited

namespace Status

/-- The name shown for a status. -/
def name : Status → String
  | init => "INIT"
  | cancelled => "CANCELLED"
  | done => "DONE"

end Status

namespace Outcome

/-- The status that a completion with this outcome claims. -/
def status : Outcome → Status
  | cancelled => .cancelled
  | _ => .done

/-- What a read of the outcome gives. -/
def read : Outcome → Except ReadError Value
  | value v => .ok v
  | failed e => .error (.execution e)
  | cancelled => .error .cancelled

/-- The value, if the outcome is one. -/
def value? : Outcome → Option Value
  | value v => some v
  | _ => none

/-- The error, if the outcome is one. -/
def error? : Outcome → Option Value
  | failed e => some e
  | _ => none

/-- The outcome that a computation's result stands for. -/
def ofExcept : Except Value Value → Outcome
  | .ok v => value v
  | .error e => failed e

theorem status_ne_init (o : Outcome) : o.status ≠ .init := by
  cases o <;> simp [status]

theorem status_eq_cancelled_iff {o : Outcome} : o.status = .cancelled ↔ o = .cancelled := by
  cases o <;> simp [status]

end Outcome

end OneShot
