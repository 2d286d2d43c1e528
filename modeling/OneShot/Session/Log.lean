import OneShot.Session.Masking
import OneShot.Session.State

/-!
# The log as a session tells it

- **Order** (`sortWakes`): the wakers of a promise are called in no order of their own, so calls of
  wakers in a row are told in the order of their texts.
- **Times** (`maskEntry`): in a session on the wall clock the texts of the library tell no time.
-/

namespace OneShot.Session

/-- The text by which a call of a waker is ordered among others. -/
def wakeKey : Entry host → Option String
  | .program (.wake id saw) =>
    let seen := match saw with
      | none => "null"
      | some (done, n) => "[" ++ (if done then "true" else "false") ++ "," ++ toString n ++ "]"
    some ("\x7b\"saw\":" ++ seen ++ ",\"wake\":" ++ id ++ "\x7d")
  | _ => none

/-- Puts an entry in front of a log. Calls of wakers in a row have no order of their own and are
put in the order of their texts. -/
def insertEntry (e : Entry host) : List (Entry host) → List (Entry host)
  | [] => [e]
  | f :: rest =>
    match wakeKey e, wakeKey f with
    | some a, some b => if b < a then f :: insertEntry e rest else e :: f :: rest
    | _, _ => e :: f :: rest

/-- A log with the calls of wakers in a row put in order. -/
def sortWakes (log : List (Entry host)) : List (Entry host) := log.foldr insertEntry []

/-- Hides the times in a record of the library. -/
def maskRecord : LogRecord → LogRecord
  | .completed p shown duration => .completed p (mask shown) duration
  | .absorbed p shown e => .absorbed p (mask shown) e
  | .propagated p shown e => .propagated p (mask shown) e
  | .chainPanicked p shown => .chainPanicked p (mask shown)

/-- An entry of the log as the session tells it. -/
def maskEntry (system : Bool) : Entry host → Entry host
  | .library r => .library (if system then maskRecord r else r)
  | e => e

end OneShot.Session
