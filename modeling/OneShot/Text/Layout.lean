/-!
# Structured text

The layout of a structured value before it is written: names, fields and items. One value is
written in two ways.

- **On one line** (`Layout.line`): `Name { field: x, other: y }`, `Name(x)`, `[x, y]`.
- **Indented** (`Layout.block`): one field or item a line, four spaces deeper than its parent, each
  with a comma after it.

A record or list without parts is written the same way in both.
-/

namespace OneShot.Text

/-- A structured value to be written. -/
inductive Layout where
  /-- Text that is written as it is. -/
  | atom (text : String)
  /-- A name with named fields. -/
  | record (name : String) (fields : List (String × Layout))
  /-- A name whose fields are not shown. -/
  | hidden (name : String)
  /-- A name with items in parentheses. -/
  | tuple (name : String) (items : List Layout)
  /-- Items in brackets. -/
  | list (items : List Layout)
  deriving Inhabited

namespace Layout

/-- An optional value: `None`, or `Some` with one item. -/
def option : Option Layout → Layout
  | none => atom "None"
  | some x => tuple "Some" [x]

/-- A truth value. -/
def bool (b : Bool) : Layout := atom (if b then "true" else "false")

/-- The start of a line at depth `n`. -/
def margin (n : Nat) : String := String.ofList (List.replicate (4 * n) ' ')

mutual

/-- The text of a layout on one line. -/
def line : Layout → String
  | atom text => text
  | record name [] => name
  | record name (f :: fs) => name ++ " \x7b " ++ lineFields (f :: fs) ++ " \x7d"
  | hidden name => name ++ " \x7b .. \x7d"
  | tuple name [] => name
  | tuple name (x :: xs) => name ++ "(" ++ lineItems (x :: xs) ++ ")"
  | list items => "[" ++ lineItems items ++ "]"

/-- Fields on one line, with commas between them. -/
def lineFields : List (String × Layout) → String
  | [] => ""
  | [(name, x)] => name ++ ": " ++ line x
  | (name, x) :: fs => name ++ ": " ++ line x ++ ", " ++ lineFields fs

/-- Items on one line, with commas between them. -/
def lineItems : List Layout → String
  | [] => ""
  | [x] => line x
  | x :: xs => line x ++ ", " ++ lineItems xs

end

mutual

/-- The text of a layout at depth `n`, one field or item a line. -/
def blockAt (n : Nat) : Layout → String
  | atom text => text
  | record name [] => name
  | record name (f :: fs) =>
    name ++ " \x7b\n" ++ blockFields (n + 1) (f :: fs) ++ margin n ++ "\x7d"
  | hidden name => name ++ " \x7b .. \x7d"
  | tuple name [] => name
  | tuple name (x :: xs) => name ++ "(\n" ++ blockItems (n + 1) (x :: xs) ++ margin n ++ ")"
  | list [] => "[]"
  | list (x :: xs) => "[\n" ++ blockItems (n + 1) (x :: xs) ++ margin n ++ "]"

/-- Fields at depth `n`, each on its line. -/
def blockFields (n : Nat) : List (String × Layout) → String
  | [] => ""
  | (name, x) :: fs => margin n ++ name ++ ": " ++ blockAt n x ++ ",\n" ++ blockFields n fs

/-- Items at depth `n`, each on its line. -/
def blockItems (n : Nat) : List Layout → String
  | [] => ""
  | x :: xs => margin n ++ blockAt n x ++ ",\n" ++ blockItems n xs

end

/-- The indented text of a layout. -/
def block (x : Layout) : String := blockAt 0 x

/-- The text of a layout, indented if `indent` is set. -/
def render (indent : Bool) (x : Layout) : String := if indent then x.block else x.line

end Layout

end OneShot.Text
