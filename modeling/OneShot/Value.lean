import OneShot.Text.Layout
import OneShot.Text.Quoted

/-!
# Values

What a promise is completed with: nothing, a truth value, a 64-bit signed integer or a text. The
same type serves for results and for recorded errors.

- **Integers** (`Value.fits`, `Value.add`): a sum outside the 64-bit range is refused.
- **Shown** (`Value.layout`): `()`, `true`, `-3`, `"text"`.
-/

namespace OneShot

/-- A result or a recorded error. -/
inductive Value where
  | unit
  | bool (b : Bool)
  | int (i : Int)
  | text (s : String)
  deriving DecidableEq, Repr, Inhabited

namespace Value

/-- Whether an integer is in the 64-bit signed range. -/
def fits (i : Int) : Bool := decide (-0x8000000000000000 ≤ i) && decide (i < 0x8000000000000000)

/-- An integer value plus `n`, or why there is none. -/
def add (v : Value) (n : Int) : Except Value Value :=
  match v with
  | int i => if fits (i + n) then .ok (int (i + n)) else .error (text "overflow")
  | _ => .error (text "not an int")

/-- How a value is shown inside structured text. -/
def layout : Value → Text.Layout
  | unit => .atom "()"
  | bool b => .bool b
  | int i => .atom (toString i)
  | text s => .atom (Text.Quoted.quote s)

end Value

end OneShot
