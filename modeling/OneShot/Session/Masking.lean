/-!
# Masked times

In a session on the wall clock no time is told. In a text that shows a promise, the digits after
the name of a time become a `T`, unless the time is zero, which says that there is none yet. Where
no digits follow the name, as in a text that is masked already, a `T` is put there too.

- **The names** (`markers`): as they are written before a time.
- **Masking** (`mask`): replaces each such run of digits, also an empty one.
-/

namespace OneShot.Session

/-- What stands before a time. -/
def markers : List (List Char) :=
  ["startTime=".toList, "endTime=".toList, "start_time: ".toList, "end_time: ".toList]

/-- Whether a text, given backwards, ends in a marker. -/
def afterMarker (back : List Char) : Bool :=
  markers.any fun marker => marker.reverse.isPrefixOf back

/-- Masks the times in a text. `back` is what stands before it, backwards, and `hidden` says that
the digits at its start belong to a masked time. -/
def maskFrom (back : List Char) (hidden : Bool) : List Char → List Char
  | [] => if afterMarker back then ['T'] else []
  | c :: cs =>
    if hidden && c.isDigit then maskFrom (c :: back) true cs
    else if !afterMarker back then c :: maskFrom (c :: back) false cs
    else if !c.isDigit then 'T' :: c :: maskFrom (c :: back) false cs
    else if c == '0' && !(cs.head?.any Char.isDigit) then c :: maskFrom (c :: back) false cs
    else 'T' :: maskFrom (c :: back) true cs

/-- A text with its times masked. -/
def mask (s : String) : String := String.ofList (maskFrom [] false s.toList)

end OneShot.Session
